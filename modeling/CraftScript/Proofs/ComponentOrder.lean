import CraftScript.Proofs.RecipePaths

/-! Components in any order. An entity is read by the names of its components alone: whatever the
bodies hold, the search finds the components that were written, and the table of their bodies does not
show where they stood. -/
namespace CraftScript

open Text

namespace Block

def writtenAll (keyword : Keyword) (blocks : List Block) : Text :=
  joinLines (blocks.map fun block => written keyword block.name block.body)

theorem writtenAll_cons (keyword : Keyword) (block : Block) {blocks : List Block}
    (more : blocks ≠ []) :
    writtenAll keyword (block :: blocks) =
      written keyword block.name block.body ++ ('\n' :: writtenAll keyword blocks) := by
  have rest : blocks.map (fun block => written keyword block.name block.body) ≠ [] := by
    simpa using more
  simp [writtenAll, joinLines, List.intercalate_cons_of_ne_nil rest]

/-- The scan finds the written blocks one by one. What is left to it begins with the newline that
stands behind the block before, if there was one. -/
theorem scanFrom_writtenAll {keyword : Keyword} {blocks : List Block}
    (named : ∀ block ∈ blocks, IsName block.name)
    (balanced : ∀ block ∈ blocks, Brace.Balanced block.body) {pad : Text}
    (blanks : ∀ c ∈ pad, isBlank c) {previous : Option Char} (begins : beginsWord previous) :
    let scan := scanFrom keyword.word.toList 0 previous (pad ++ writtenAll keyword blocks)
    scan.pieces.filterMap Piece.value? = blocks ∧ scan.unclosed = none := by
  induction blocks generalizing pad previous with
  | nil =>
    have passed := scanFrom_silent (@opener_silent_end keyword.word.toList pad
      (braceless_blanks blanks) previous)
    change (scanFrom _ 0 previous (pad ++ [])).pieces.filterMap Piece.value? = [] ∧
      (scanFrom _ 0 previous (pad ++ [])).unclosed = none
    rw [passed, scanFrom, List.append_nil]
    exact ⟨Piece.filterMap_value?_kept pad, rfl⟩
  | cons block blocks ih =>
    obtain ⟨rest, split, later⟩ : ∃ rest, writtenAll keyword (block :: blocks) =
        written keyword block.name block.body ++ rest ∧
        ((scanFrom keyword.word.toList 0 (some '}') rest).pieces.filterMap Piece.value? = blocks ∧
          (scanFrom keyword.word.toList 0 (some '}') rest).unclosed = none) := by
      by_cases last : blocks = []
      · subst last
        exact ⟨[], by simp [writtenAll, joinLines], rfl, rfl⟩
      · refine ⟨_, writtenAll_cons keyword block last, ?_⟩
        have blank : ∀ c ∈ ['\n'], isBlank c := by decide
        exact ih (fun other inside => named other (by simp [inside]))
          (fun other inside => balanced other (by simp [inside])) blank (by decide)
    have scanned := @scanFrom_written keyword _ _ pad (named block (by simp))
      (balanced block (by simp)) blanks previous begins rest
    intro scan
    simp only [scan, split, scanned, List.filterMap_append, Piece.filterMap_value?_kept,
      List.filterMap_cons, Piece.value?, later, List.nil_append, and_self]

theorem all_writtenAll {keyword : Keyword} {blocks : List Block}
    (named : ∀ block ∈ blocks, IsName block.name)
    (balanced : ∀ block ∈ blocks, Brace.Balanced block.body) :
    all keyword (writtenAll keyword blocks) = pure blocks := by
  obtain ⟨found, closed⟩ := @scanFrom_writtenAll keyword blocks named balanced [] (by simp) none rfl
  have scanned : scanFrom keyword.word.toList 0 none (writtenAll keyword blocks) =
      ⟨(scanFrom keyword.word.toList 0 none (writtenAll keyword blocks)).pieces, none⟩ :=
    congrArg (Scan.mk _) closed
  rw [all_eq scanned]
  exact congrArg pure found

theorem bodies_perm {blocks blocks' : List Block} (perm : blocks.Perm blocks')
    (distinct : (blocks.map (·.name)).Nodup) : bodies blocks = bodies blocks' := by
  apply Dict.ofList_perm (perm.map _)
  have names : (blocks.map fun block => (String.ofList block.name, block.body)).map (·.1) =
      (blocks.map (·.name)).map String.ofList := by
    simp
  rw [names]
  exact distinct.map fun _ _ same => String.ofList_injective same

end Block

namespace Construction

/-- The components of an entity, written one on a line with distinct names and balanced bodies, are
found as they were written, and in every other order the entity reads the same, issues included. -/
theorem readEntity_any_order (settings : Settings) (skins : Option SkinSheet) (name : Text)
    {components : List Block} (named : ∀ component ∈ components, Block.IsName component.name)
    (balanced : ∀ component ∈ components, Brace.Balanced component.body)
    (distinct : (components.map (·.name)).Nodup) :
    Block.all .component (Block.writtenAll .component components) = pure components ∧
      ∀ order, order.Perm components →
        readEntity settings skins ⟨name, Block.writtenAll .component order⟩ =
          readEntity settings skins ⟨name, Block.writtenAll .component components⟩ := by
  have found := @Block.all_writtenAll .component _ named balanced
  refine ⟨found, fun order perm => ?_⟩
  have found' : Block.all .component (Block.writtenAll .component order) = pure order :=
    Block.all_writtenAll (fun component inside => named component (perm.mem_iff.mp inside))
      (fun component inside => balanced component (perm.mem_iff.mp inside))
  have table : Block.bodies order = Block.bodies components :=
    (Block.bodies_perm perm.symm distinct).symm
  simp only [readEntity, found, found', pure_bind, table]

/-- Components that hold the heads of one another, one of them named like the keyword, and a line of
the recipe that is noted. -/
theorem readEntity_any_order_nested :
    let craft : Block := ⟨"CraftRecipe".toList, "\n inputs \x7b odd line \x7d time = 5\n".toList⟩
    let style : Block := ⟨"UiConfig".toList,
      " component CraftRecipe \x7b \x7d\n entityStyle = wall ".toList⟩
    let other : Block := ⟨"component".toList, "component SpriteConfig \x7b face N \x7b\x7d \x7d".toList⟩
    let skins : SkinSheet := ⟨"Base", Dict.ofList [("wall", ⟨some "Wall", none⟩)]⟩
    (∀ component ∈ [craft, style, other], Block.IsName component.name) ∧
      (∀ component ∈ [craft, style, other], Brace.Balanced component.body) ∧
      Block.all .component (Block.writtenAll .component [craft, style, other]) =
        pure [craft, style, other] ∧
      readEntity {} (some skins) ⟨"E".toList, Block.writtenAll .component [other, style, craft]⟩ =
        readEntity {} (some skins) ⟨"E".toList, Block.writtenAll .component [craft, style, other]⟩ := by
  intro craft style other skins
  have named : ∀ component ∈ [craft, style, other], Block.IsName component.name := by
    simp only [List.forall_mem_cons, List.not_mem_nil, false_implies, implies_true, and_true]
    exact ⟨by constructor <;> decide, by constructor <;> decide, by constructor <;> decide⟩
  have closes (body : Text) (closed : Brace.close? (body ++ ['}']) = some (body, [])) :
      Brace.Balanced body := (Brace.close?_eq_some_iff.mp closed).2
  have balanced : ∀ component ∈ [craft, style, other], Brace.Balanced component.body := by
    simp only [List.forall_mem_cons, List.not_mem_nil, false_implies, implies_true, and_true]
    exact ⟨closes _ (by decide +kernel), closes _ (by decide +kernel), closes _ (by decide +kernel)⟩
  obtain ⟨found, same⟩ := readEntity_any_order {} (some skins) "E".toList named balanced (by decide)
  refine ⟨named, balanced, found, same _ ?_⟩
  exact List.reverse_perm [craft, style, other]

end Construction

end CraftScript
