import CraftScript.Proofs.BlockSpans
import CraftScript.Proofs.MissingSections
import CraftScript.Proofs.SectionItems

/-! The contents of a skin. A module's first skin is found by its head, and what its braces enclose is
read for labels and then cut out, so whatever balanced text stands there, the constructions of the
module are those of the entities around the skin, and only the label at the end of their outputs can
differ. -/
namespace CraftScript

open Text

namespace Piece

variable {α : Type}

theorem flatMap_source_kept (t : Text) : (t.map (kept (α := α))).flatMap source = t := by
  simp [List.flatMap_map, source]

theorem found_not_mem_kept (t : Text) (value : α) (region : Text) :
    found value region ∉ t.map (kept (α := α)) := by
  simp

theorem head?_found (before region : Text) (value : α) (late : List (Piece α)) :
    ((before.map kept ++ found value region :: late).filterMap value?).head? = some value := by
  rw [List.filterMap_append, filterMap_value?_kept]
  rfl

theorem withoutFirst_found (before region : Text) (value : α) (late : List (Piece α)) :
    withoutFirst (before.map kept ++ found value region :: late) = before ++ late.flatMap source := by
  induction before with
  | nil => rfl
  | cons c before ih => simp [withoutFirst, ih]

theorem first_or_later {before region region' : Text} {value value' : α}
    {pieces early late : List (Piece α)}
    (same : before.map kept ++ found value region :: pieces = early ++ found value' region' :: late) :
    (early = before.map kept ∧ value = value' ∧ region = region' ∧ pieces = late) ∨
      ∃ between, early = before.map kept ++ found value region :: between ∧
        pieces = between ++ found value' region' :: late := by
  rcases List.append_eq_append_iff.mp same with ⟨between, split, tail⟩ | ⟨between, split, tail⟩
  · cases between with
    | nil =>
      obtain ⟨first, rest⟩ := List.cons.inj tail
      obtain ⟨rfl, rfl⟩ := found.inj first
      exact .inl ⟨by simpa using split, rfl, rfl, rest⟩
    | cons piece between =>
      obtain ⟨rfl, rest⟩ := List.cons.inj tail
      exact .inr ⟨between, split, rest⟩
  · cases between with
    | nil =>
      obtain ⟨first, rest⟩ := List.cons.inj tail
      obtain ⟨rfl, rfl⟩ := found.inj first
      exact .inl ⟨by simpa using split.symm, rfl, rfl, rest.symm⟩
    | cons piece between =>
      obtain ⟨rfl, -⟩ := List.cons.inj tail
      have member : found value' region' ∈ before.map kept := by simp [split]
      exact absurd member (found_not_mem_kept before value' region')

theorem located_append (start : Nat) (early late : List (Piece α)) :
    located start (early ++ late) =
      located start early ++ located (start + byteSize (early.flatMap source)) late := by
  induction early generalizing start with
  | nil => rfl
  | cons piece early ih =>
    cases piece with
    | kept c => simp [located, ih, source, byteSize, Nat.add_assoc]
    | found value region => simp [located, ih, source, Nat.add_assoc]

theorem exists_of_mem_located {pieces : List (Piece α)} {start : Nat} {value : α} {span : Span}
    (member : (value, span) ∈ located start pieces) :
    ∃ early region late, pieces = early ++ found value region :: late ∧
      span = ⟨start + byteSize (early.flatMap source),
        start + byteSize (early.flatMap source ++ region)⟩ := by
  induction pieces generalizing start with
  | nil => simp [located] at member
  | cons piece pieces ih =>
    cases piece with
    | kept c =>
      obtain ⟨early, region, late, rfl, rfl⟩ := ih member
      refine ⟨kept c :: early, region, late, rfl, ?_⟩
      simp [source, byteSize, Nat.add_assoc]
    | found value' region' =>
      rcases List.mem_cons.mp member with first | later
      · obtain ⟨rfl, rfl⟩ := Prod.mk.inj first
        exact ⟨[], region', pieces, rfl, by simp [byteSize]⟩
      · obtain ⟨early, region, late, rfl, rfl⟩ := ih later
        refine ⟨found value' region' :: early, region, late, rfl, ?_⟩
        simp [source, Nat.add_assoc]

theorem exists_of_head?_located {pieces : List (Piece α)} {start : Nat} {value : α} {span : Span}
    (first : (located start pieces).head? = some (value, span)) :
    ∃ before region late, pieces = before.map kept ++ found value region :: late ∧
      span = ⟨start + byteSize before, start + byteSize (before ++ region)⟩ := by
  induction pieces generalizing start with
  | nil => simp [located] at first
  | cons piece pieces ih =>
    cases piece with
    | kept c =>
      obtain ⟨before, region, late, rfl, rfl⟩ := ih first
      refine ⟨c :: before, region, late, rfl, ?_⟩
      simp [byteSize, Nat.add_assoc]
    | found value' region' =>
      obtain ⟨rfl, rfl⟩ := Prod.mk.inj (Option.some.inj first)
      exact ⟨[], region', pieces, rfl, by simp [byteSize]⟩

end Piece

theorem Brace.balanced_replaced {front inner inner' back : Text}
    (whole : Balanced (front ++ (inner ++ back))) (old : Balanced inner) (new : Balanced inner') :
    Balanced (front ++ (inner' ++ back)) := by
  have total := old.settled
  have total' := new.settled
  refine ⟨fun early ⟨late, split⟩ => ?_, ?_⟩
  · rcases List.append_eq_append_iff.mp split with ⟨between, rfl, -⟩ | ⟨between, rfl, rest⟩
    · exact whole.sane early ⟨between ++ (inner ++ back), by simp⟩
    · rcases List.append_eq_append_iff.mp rest with ⟨excess, rfl, behind⟩ | ⟨excess, rfl, -⟩
      · have bound := whole.sane (front ++ (inner ++ excess)) ⟨late, by rw [behind]; simp⟩
        simp only [List.count_append] at bound ⊢
        omega
      · have bound := whole.sane front (List.prefix_append _ _)
        have bound' := new.sane between (List.prefix_append _ _)
        simp only [List.count_append]
        omega
  · have sum := whole.settled
    simp only [List.count_append] at sum ⊢
    omega

namespace Block

/-- A head is read up to the first brace behind it, so what follows that brace does not show. -/
theorem silent_before_brace {word s u x : Text} {previous : Option Char} (keyword : IsKeyword word)
    (silent : (opener word).Silent previous s (u ++ '{' :: x)) (y : Text) :
    (opener word).Silent previous s (u ++ '{' :: y) := by
  rintro front c back rfl
  rw [Option.eq_none_iff_forall_ne_some]
  rintro ⟨name, inside⟩ read
  obtain ⟨begins, gap, gap', spaced, blanks, named, every, blanks', same⟩ := opener_eq_some_iff.mp read
  have free : Braceless (word ++ gap ++ name ++ gap') := by
    simp only [braceless_append]
    exact ⟨⟨⟨keyword.braceless, braceless_blanks blanks⟩, braceless_name every⟩,
      braceless_blanks blanks'⟩
  obtain ⟨inside', same'⟩ : ∃ inside', c :: (back ++ (u ++ '{' :: x)) =
      word ++ gap ++ name ++ gap' ++ '{' :: inside' := by
    generalize word ++ gap ++ name ++ gap' = head at same free
    have split : (c :: (back ++ u)) ++ '{' :: y = head ++ '{' :: inside := by simpa using same
    rcases List.append_eq_append_iff.mp split with ⟨between, rfl, late⟩ | ⟨between, early, late⟩
    · cases between with
      | nil => exact ⟨x, by simp⟩
      | cons d between =>
        obtain ⟨rfl, -⟩ := List.cons.inj late
        exact absurd rfl (free '{' (by simp)).1
    · cases between with
      | nil => exact ⟨x, by rw [← List.append_nil head, ← early]; simp⟩
      | cons d between =>
        obtain ⟨rfl, -⟩ := List.cons.inj late
        have whole : c :: (back ++ (u ++ '{' :: x)) = (c :: (back ++ u)) ++ '{' :: x := by simp
        exact ⟨between ++ '{' :: x, by rw [whole, early]; simp⟩
  have read' := opener_eq_some_iff.mpr
    ⟨begins, gap, gap', spaced, blanks, named, every, blanks', same'⟩
  rw [silent front c back rfl] at read'
  contradiction

theorem scanFrom_headed {word before head name x : Text} {previous : Option Char}
    (keyword : IsKeyword word) (silent : (opener word).Silent previous before (head ++ '{' :: x))
    (read : opener word (lastOf previous before) (head ++ '{' :: x) = some (name, x)) {body : Text}
    (balanced : Brace.Balanced body) (rest : Text) :
    scanFrom word 0 previous (before ++ ((head ++ Brace.braced body) ++ rest)) =
      ⟨before.map .kept ++ .found ⟨name, body⟩ (head ++ Brace.braced body) ::
          (scanFrom word 0 (some '}') rest).pieces,
        (scanFrom word 0 (some '}') rest).unclosed⟩ := by
  have split : (head ++ Brace.braced body) ++ rest = head ++ '{' :: (body ++ '}' :: rest) := by
    simp [Brace.braced]
  have last : lastOf (lastOf previous before) (head ++ Brace.braced body) = some '}' := by
    simp [Brace.braced]
  have read' : opener word (lastOf previous before) ((head ++ Brace.braced body) ++ rest) =
      some (name, body ++ '}' :: rest) := by
    obtain ⟨begins, gap, gap', spaced, blanks, named, every, blanks', same⟩ :=
      opener_eq_some_iff.mp read
    rw [List.append_cancel_right same] at split
    rw [List.append_cancel_right same]
    exact opener_eq_some_iff.mpr ⟨begins, gap, gap', spaced, blanks, named, every, blanks', split⟩
  have silent' := silent_before_brace keyword silent (body ++ '}' :: rest)
  rw [← split] at silent'
  rw [scanFrom_silent silent', scanFrom_found (by simp [Brace.braced]) read'
    (Brace.close?_balanced balanced rest), last]
  rfl

/-- A scan comes to a block or to none, and the block has a head, behind which the scan reads it. -/
theorem scanFrom_first (word : Text) (previous : Option Char) (t : Text) :
    (∃ unclosed, scanFrom word 0 previous t = ⟨t.map .kept, unclosed⟩) ∨
    ∃ before head name body x rest, t = before ++ ((head ++ Brace.braced body) ++ rest) ∧
      (opener word).Silent previous before (head ++ '{' :: x) ∧
      opener word (lastOf previous before) (head ++ '{' :: x) = some (name, x) ∧
      Brace.Balanced body := by
  obtain ⟨-, scanned⟩ | ⟨found, first, ⟨-, scanned⟩ | ⟨body, -, after, closed, -⟩⟩ :=
    Block.scanFrom_cases word previous t
  · exact .inl ⟨none, scanned⟩
  · exact .inl ⟨some found.value, scanned⟩
  · obtain ⟨here, rfl, read⟩ := Pattern.firstFrom?_eq_some first
    have silent := Pattern.silent_before_firstFrom? first rfl
    obtain ⟨head, rfl⟩ := Bytewise.endsOnBrace_opener word _ _ _ _ read
    obtain ⟨inside, balanced⟩ := Brace.close?_eq_some_iff.mp closed
    refine .inr ⟨found.before, head, found.value, body, found.after, after, ?_, silent, read, balanced⟩
    rw [inside]
    simp [Brace.braced]

theorem balanced_of_mem_pieces {word : Text} {covered : Nat} {previous : Option Char} {t : Text}
    {block : Block} {source : Text}
    (member : .found block source ∈ (scanFrom word covered previous t).pieces) :
    Brace.Balanced block.body := by
  have found : block ∈ (scanFrom word covered previous t).pieces.filterMap Piece.value? :=
    List.mem_filterMap.mpr ⟨_, member, rfl⟩
  obtain ⟨_, _, _, _, -, closed⟩ := exists_of_mem_scanFrom found
  exact (Brace.close?_eq_some_iff.mp closed).2

/-- A block that is found can have any other balanced body: the search finds it in its place, and
before it and behind it what it found there. -/
theorem scanFrom_rebodied {word : Text} (keyword : IsKeyword word) {previous : Option Char}
    {t source : Text} {early late : List (Piece Block)} {block : Block}
    (found : (scanFrom word 0 previous t).pieces = early ++ .found block source :: late) :
    ∃ head, source = head ++ Brace.braced block.body ∧ ∀ body, Brace.Balanced body →
      scanFrom word 0 previous (early.flatMap Piece.source ++
          ((head ++ Brace.braced body) ++ late.flatMap Piece.source)) =
        ⟨early ++ .found ⟨block.name, body⟩ (head ++ Brace.braced body) :: late,
          (scanFrom word 0 previous t).unclosed⟩ := by
  -- By what is left behind the blocks that stand before this one.
  induction size : t.length using Nat.strong_induction_on generalizing previous t early with
  | _ n ih =>
    obtain ⟨unclosed, scanned⟩ | ⟨before, head, name, body₀, x, rest, whole, silent, read, balanced⟩ :=
      scanFrom_first word previous t
    · rw [scanned] at found
      have member : Piece.found block source ∈ t.map Piece.kept := by simp [show t.map _ = _ from found]
      exact absurd member (Piece.found_not_mem_kept t block source)
    · have scanned := scanFrom_headed keyword silent read balanced rest
      have behind : (scanFrom word 0 (some '}') rest).pieces.flatMap Piece.source = rest := by
        rw [flatMap_source_scanFrom, List.drop_zero]
      rw [← whole] at scanned
      rw [scanned] at found ⊢
      rcases Piece.first_or_later found with ⟨rfl, rfl, rfl, rfl⟩ | ⟨between, rfl, later⟩
      · refine ⟨head, rfl, fun body balanced' => ?_⟩
        rw [behind, Piece.flatMap_source_kept]
        exact scanFrom_headed keyword silent read balanced' rest
      · have shorter : rest.length < n := by
          rw [← size, whole]
          simp [Brace.braced]
          omega
        obtain ⟨head', parts, again⟩ := ih _ shorter later rfl
        refine ⟨head', parts, fun body balanced' => ?_⟩
        have moved := scanFrom_headed keyword silent read balanced
          (between.flatMap Piece.source ++ ((head' ++ Brace.braced body) ++ late.flatMap Piece.source))
        rw [again body balanced'] at moved
        rw [List.flatMap_append, Piece.flatMap_source_kept, List.flatMap_cons, Piece.source,
          List.append_assoc before, List.append_assoc (head ++ Brace.braced body₀), moved]
        simp

theorem pieces_rebodied {keyword : Keyword} {t source : Text} {early late : List (Piece Block)}
    {block : Block} (found : (pieces keyword t).value = early ++ .found block source :: late) :
    ∃ head, source = head ++ Brace.braced block.body ∧ Brace.Balanced block.body ∧
      t = early.flatMap Piece.source ++ (source ++ late.flatMap Piece.source) ∧
      ∀ body, Brace.Balanced body →
        pieces keyword (early.flatMap Piece.source ++
            ((head ++ Brace.braced body) ++ late.flatMap Piece.source)) =
          ⟨early ++ .found ⟨block.name, body⟩ (head ++ Brace.braced body) :: late,
            (pieces keyword t).issues⟩ := by
  obtain ⟨head, parts, again⟩ := scanFrom_rebodied (isKeyword_word keyword) found
  change (scanFrom _ 0 none t).pieces = _ at found
  have member : .found block source ∈ (scanFrom keyword.word.toList 0 none t).pieces := by
    rw [found]
    simp
  have whole := flatMap_source_scanFrom keyword.word.toList 0 none t
  rw [found, List.flatMap_append, List.flatMap_cons, List.drop_zero] at whole
  refine ⟨head, parts, balanced_of_mem_pieces member, whole.symm, fun body new => ?_⟩
  rw [pieces, again body new]
  rfl

theorem unclosed_of_closing (word : Text) {previous : Option Char} {t : Text}
    (closing : Brace.Closing t) : (scanFrom word 0 previous t).unclosed = none := by
  induction size : t.length using Nat.strong_induction_on generalizing previous t with
  | _ n ih =>
    obtain ⟨-, scanned⟩ | ⟨found, first, ⟨unclosed, scanned⟩ |
      ⟨body, source, after, -, nonempty, rfl, scanned⟩⟩ := Block.scanFrom_cases word previous t
    · rw [scanned]
    · obtain ⟨here, rfl, read⟩ := Pattern.firstFrom?_eq_some first
      obtain ⟨head, rfl⟩ := Bytewise.endsOnBrace_opener word _ _ _ _ read
      rw [← List.append_assoc] at closing
      obtain ⟨body, rest, closed⟩ := closing.exists_close?
      rw [unclosed] at closed
      contradiction
    · rw [scanned]
      apply ih after.length _ _ rfl
      · have filled := List.length_pos_iff.mpr nonempty
        simp only [← size, List.length_append]
        omega
      · exact fun rest suffix => closing rest (suffix.trans (List.suffix_append _ _))

theorem issues_pieces_of_balanced (keyword : Keyword) {t : Text} (balanced : Brace.Balanced t) :
    (pieces keyword t).issues = [] := by
  rw [pieces, unclosed_of_closing _ balanced.closing]
  rfl

end Block

theorem WithIssues.bind_congr_value {α β : Type} {x : WithIssues α} {f g : α → WithIssues β}
    (same : f x.value = g x.value) : x >>= f = x >>= g := by
  simp only [bind, same]

def Recipe.labelled (skin : Option Skin) (recipe : Recipe) : Recipe :=
  { recipe with outputs := recipe.outputs ++ skin.toList.map .skin }

def Recipe.SameButSkin (recipe other : Recipe) : Prop :=
  ∃ (bare : Recipe) (skin skin' : Option Skin), (∀ entry ∈ bare.outputs, entry.skin? = none) ∧
    recipe = bare.labelled skin ∧ other = bare.labelled skin'

namespace SkinSheet

theorem issues_read {block : Block} (balanced : Brace.Balanced block.body) :
    (read block).issues = [] := by
  simp [read, Block.all, Block.issues_pieces_of_balanced .entity balanced]

end SkinSheet

namespace Construction

theorem skin?_none (name : String) (components : Dict Text) : skin? none name components = none := by
  simp [skin?]

/-- The sheet of a skin does no more than to put a label behind the outputs. -/
theorem readEntity_labelled (settings : Settings) (skins : Option SkinSheet) (entity : Block) :
    ∃ skin, readEntity settings skins entity =
      Option.map (Recipe.labelled skin) <$> readEntity settings none entity := by
  refine ⟨skin? skins (String.ofList entity.name)
    (Block.bodies (Block.all .component entity.body).value), ?_⟩
  simp only [readEntity, map_bind, skin?_none]
  apply WithIssues.bind_congr_value
  generalize Block.bodies (Block.all .component entity.body).value = components
  cases components.get? "CraftRecipe" with
  | none => rfl
  | some body => cases components.get? "SpriteConfig" <;> simp [Recipe.labelled]

theorem unlabelled_readEntity {settings : Settings} {entity : Block} {recipe : Recipe}
    (read : (readEntity settings none entity).value = some recipe) :
    ∀ entry ∈ recipe.outputs, entry.skin? = none := by
  simp only [readEntity, WithIssues.value_bind, skin?_none] at read
  split at read
  next => cases read
  next body _ =>
    have same : recipe.outputs =
        (RecipeBody.read settings (String.ofList entity.name) body).value.outputs := by
      simp only [WithIssues.value_bind] at read
      split at read <;> cases read <;> simp
    have lasting : Item.Lasting settings fun _ => True := ⟨fun _ _ => trivial, fun _ _ => trivial⟩
    obtain ⟨-, made⟩ := RecipeBody.made_body lasting (fun _ _ _ => trivial)
      (String.ofList entity.name) body
    intro entry inside
    rw [same] at inside
    cases entry with
    | skin skin => exact (made _ inside).elim
    | item | fluid | energy => rfl

theorem sameButSkin_readEntity (settings : Settings) (skins skins' : Option SkinSheet)
    (entity : Block) :
    Option.Rel Recipe.SameButSkin (readEntity settings skins entity).value
        (readEntity settings skins' entity).value ∧
      (readEntity settings skins entity).issues = (readEntity settings skins' entity).issues := by
  obtain ⟨skin, labelled⟩ := readEntity_labelled settings skins entity
  obtain ⟨skin', labelled'⟩ := readEntity_labelled settings skins' entity
  rw [labelled, labelled', WithIssues.value_map, WithIssues.value_map, WithIssues.issues_map,
    WithIssues.issues_map]
  refine ⟨?_, rfl⟩
  cases read : (readEntity settings none entity).value with
  | none => exact .none
  | some bare => exact .some ⟨bare, skin, skin', unlabelled_readEntity read, rfl, rfl⟩

/-- The constructions of a module whose first skin is known: those of the entities before and behind
the skin, labelled from its sheet. The labels of a balanced skin bring no issue. -/
theorem readModule_of_skin (settings : Settings) {module skin : Block} {before region : Text}
    {late : List (Piece Block)} {noted : List Issue}
    (pieces : Block.pieces .xuiSkin module.body =
      ⟨before.map .kept ++ .found skin region :: late, noted⟩)
    (balanced : Brace.Balanced skin.body) :
    let entities := Block.all .entity (before ++ late.flatMap Piece.source)
    (readModule settings module).value = entities.value.filterMap (fun entity =>
        (readEntity settings (some (SkinSheet.read skin).value) entity).value) ∧
      (readModule settings module).issues = noted ++ (entities.issues ++
        entities.value.flatMap fun entity => (readEntity settings none entity).issues) := by
  intro entities
  have labels := SkinSheet.issues_read balanced
  have unlabelled (entity : Block) := (sameButSkin_readEntity settings
    (some (SkinSheet.read skin).value) none entity).2
  simp only [readModule, pieces, Piece.head?_found, Piece.withoutFirst_found, WithIssues.value_bind,
    WithIssues.issues_bind, WithIssues.value_mapM, WithIssues.issues_mapM, WithIssues.value_pure,
    WithIssues.issues_pure, Option.mapM_some, WithIssues.value_map, WithIssues.issues_map, labels,
    unlabelled, List.filterMap_map, List.append_nil, List.nil_append]
  exact ⟨rfl, rfl⟩

def recipesIn (settings : Settings) (pieces : List (Piece Block)) : List Recipe :=
  (pieces.filterMap Piece.value?).flatMap fun module => (readModule settings module).value

def issuesIn (settings : Settings) (pieces : List (Piece Block)) : List Issue :=
  (pieces.filterMap Piece.value?).flatMap fun module => (readModule settings module).issues

theorem all_of_pieces (settings : Settings) {t region : Text} {module : Block}
    {early late : List (Piece Block)} {noted : List Issue}
    (pieces : Block.pieces .module t = ⟨early ++ .found module region :: late, noted⟩) :
    (all settings t).value = recipesIn settings early ++
        ((readModule settings module).value ++ recipesIn settings late) ∧
      (all settings t).issues = noted ++ (issuesIn settings early ++
        ((readModule settings module).issues ++ issuesIn settings late)) := by
  simp only [all, Block.all, pieces, WithIssues.value_bind, WithIssues.issues_bind,
    WithIssues.value_pure, WithIssues.issues_pure, WithIssues.value_mapM, WithIssues.issues_mapM,
    List.filterMap_append, List.filterMap_cons, Piece.value?, List.append_nil, List.flatMap_append,
    List.flatMap_cons, ← List.flatMap_def]
  exact ⟨rfl, rfl⟩

end Construction

/-- The place of a module's first skin: the texts around its labels, inside the module and outside. -/
structure SkinPlace where
  passed : Text
  moduleHead : Text
  before : Text
  skinHead : Text
  after : Text
  rest : Text

namespace SkinPlace

def inModule (place : SkinPlace) (labels : Text) : Text :=
  place.before ++ ((place.skinHead ++ Brace.braced labels) ++ place.after)

def text (place : SkinPlace) (labels : Text) : Text :=
  place.passed ++ ((place.moduleHead ++ Brace.braced (place.inModule labels)) ++ place.rest)

def moduleSpan (place : SkinPlace) (labels : Text) : Span :=
  ⟨byteSize place.passed,
    byteSize (place.passed ++ (place.moduleHead ++ Brace.braced (place.inModule labels)))⟩

def skinSpan (place : SkinPlace) (labels : Text) : Span :=
  ⟨byteSize place.before, byteSize (place.before ++ (place.skinHead ++ Brace.braced labels))⟩

/-- With these labels the module is found in the text, and the skin in the module before any other. -/
structure Holds (place : SkinPlace) (module skin labels : Text) : Prop where
  module : (⟨module, place.inModule labels⟩, place.moduleSpan labels) ∈
    (Block.located .module (place.text labels)).value
  skin : (Block.located .xuiSkin (place.inModule labels)).value.head? =
    some (⟨skin, labels⟩, place.skinSpan labels)

def recipes (settings : Settings) (place : SkinPlace) (skin labels : Text) : List Recipe :=
  (Block.all .entity (place.before ++ place.after)).value.filterMap fun entity =>
    (Construction.readEntity settings (some (SkinSheet.read ⟨skin, labels⟩).value) entity).value

theorem holds_of_pieces {place : SkinPlace} {module skin labels : Text}
    {early late behind : List (Piece Block)} {noted noted' : List Issue}
    (passed : place.passed = early.flatMap Piece.source)
    (modules : Block.pieces .module (place.text labels) =
      ⟨early ++ .found ⟨module, place.inModule labels⟩
        (place.moduleHead ++ Brace.braced (place.inModule labels)) :: late, noted⟩)
    (skins : Block.pieces .xuiSkin (place.inModule labels) =
      ⟨place.before.map .kept ++ .found ⟨skin, labels⟩
        (place.skinHead ++ Brace.braced labels) :: behind, noted'⟩) :
    place.Holds module skin labels := by
  constructor
  · change _ ∈ Piece.located 0 (Block.pieces .module (place.text labels)).value
    rw [modules, Piece.located_append, Piece.located, ← passed, Nat.zero_add, ← byteSize_append]
    simp [moduleSpan]
  · change (Piece.located 0 (Block.pieces .xuiSkin (place.inModule labels)).value).head? = _
    rw [skins, Bytewise.located_kept_append, Piece.located, Nat.zero_add, ← byteSize_append]
    rfl

theorem balanced_inModule {place : SkinPlace} {labels labels' : Text}
    (whole : Brace.Balanced (place.inModule labels)) (old : Brace.Balanced labels)
    (new : Brace.Balanced labels') : Brace.Balanced (place.inModule labels') := by
  have split (inner : Text) : place.inModule inner =
      (place.before ++ (place.skinHead ++ ['{'])) ++ (inner ++ ('}' :: place.after)) := by
    simp [inModule, Brace.braced]
  rw [split] at whole ⊢
  exact Brace.balanced_replaced whole old new

theorem sameButSkin_recipes (settings : Settings) (place : SkinPlace) (skin labels labels' : Text) :
    List.Forall₂ Recipe.SameButSkin (place.recipes settings skin labels)
      (place.recipes settings skin labels') := by
  refine List.rel_filterMap (R := Eq) ?_ (List.forall₂_refl _)
  rintro entity _ rfl
  exact (Construction.sameButSkin_readEntity settings _ _ entity).1

end SkinPlace

namespace Construction

/-- What stands in the first skin of a module shows in the labels alone. Let the module be found in a
text and the skin in the module. Then the skin has a place, and with any balanced text there the module
and the skin are found in it again, the module's constructions are those of the entities before and
behind the skin, the constructions before and behind them and all issues stay what they were, and the
module's constructions do but for a skin at the end of their outputs. -/
theorem all_relabelled (settings : Settings) {t : Text} {module skin : Block} {span inner : Span}
    (found : (module, span) ∈ (Block.located .module t).value)
    (first : (Block.located .xuiSkin module.body).value.head? = some (skin, inner)) :
    ∃ (place : SkinPlace) (early late : List Recipe),
      place.text skin.body = t ∧ place.inModule skin.body = module.body ∧
      place.moduleSpan skin.body = span ∧ place.skinSpan skin.body = inner ∧
      Brace.Balanced skin.body ∧
      ∀ labels, Brace.Balanced labels →
        place.Holds module.name skin.name labels ∧
        (readModule settings ⟨module.name, place.inModule labels⟩).value =
          place.recipes settings skin.name labels ∧
        (all settings (place.text labels)).value =
          early ++ (place.recipes settings skin.name labels ++ late) ∧
        List.Forall₂ Recipe.SameButSkin (place.recipes settings skin.name skin.body)
          (place.recipes settings skin.name labels) ∧
        (all settings (place.text labels)).issues = (all settings t).issues := by
  obtain ⟨early, region, late, modules, rfl⟩ := Piece.exists_of_mem_located found
  obtain ⟨before, region', behind, skins, rfl⟩ := Piece.exists_of_head?_located first
  obtain ⟨moduleHead, rfl, balanced, whole, remoduled⟩ := Block.pieces_rebodied modules
  obtain ⟨skinHead, rfl, balanced', whole', reskinned⟩ := Block.pieces_rebodied skins
  rw [Piece.flatMap_source_kept] at whole' reskinned
  let place : SkinPlace := {
    passed := early.flatMap Piece.source
    moduleHead
    before
    skinHead
    after := behind.flatMap Piece.source
    rest := late.flatMap Piece.source }
  have inModule : place.inModule skin.body = module.body := whole'.symm
  have text : place.text skin.body = t := by
    rw [SkinPlace.text, inModule]
    exact whole.symm
  -- For each text that is balanced: what the two searches find, and what is read there.
  have modules' {labels : Text} (new : Brace.Balanced labels) :=
    remoduled (place.inModule labels) (SkinPlace.balanced_inModule (inModule ▸ balanced) balanced' new)
  have module' {labels : Text} (new : Brace.Balanced labels) :=
    @readModule_of_skin settings ⟨module.name, place.inModule labels⟩ ⟨skin.name, labels⟩ _ _ _ _
      (reskinned labels new) new
  have all' {labels : Text} (new : Brace.Balanced labels) := all_of_pieces settings (modules' new)
  refine ⟨place, recipesIn settings early, recipesIn settings late, text, inModule, ?_, ?_, balanced',
    fun labels new => ⟨?_, (module' new).1, ?_,
      SkinPlace.sameButSkin_recipes settings place skin.name skin.body labels, ?_⟩⟩
  · rw [SkinPlace.moduleSpan, inModule, Nat.zero_add, Nat.zero_add]
  · rw [SkinPlace.skinSpan, Nat.zero_add, Nat.zero_add]
  · exact SkinPlace.holds_of_pieces rfl (modules' new) (reskinned labels new)
  · have value := (all' new).1
    rwa [(module' new).1] at value
  · have old := (all' balanced').2
    have issues := (all' new).2
    rw [(module' balanced').2] at old
    rw [(module' new).2] at issues
    rw [← text]
    exact issues.trans old.symm

/-- A skin whose label gives way to an entity with a recipe, a module and another skin. -/
theorem all_relabelled_keywords :
    let skin : Block := ⟨"S".toList, " entity E \x7b DisplayName=Wall \x7d ".toList⟩
    let module : Block := ⟨"M".toList, " xuiSkin S \x7b entity E \x7b DisplayName=Wall \x7d \x7d
entity E \x7b component CraftRecipe \x7b \x7d component UiConfig \x7b entityStyle=S \x7d \x7d ".toList⟩
    let t := "module M \x7b".toList ++ module.body ++ ['}']
    let labels := " entity F \x7b component CraftRecipe \x7b \x7d \x7d
module N \x7b xuiSkin T \x7b \x7d \x7d ".toList
    (module, ⟨0, 132⟩) ∈ (Block.located .module t).value ∧
      (Block.located .xuiSkin module.body).value.head? = some (skin, ⟨1, 44⟩) ∧
      Brace.Balanced labels ∧
      ∃ (place : SkinPlace) (early late : List Recipe),
        place.text skin.body = t ∧ place.Holds module.name skin.name labels ∧
        (all {} t).value = early ++ (place.recipes {} skin.name skin.body ++ late) ∧
        (all {} (place.text labels)).value =
          early ++ (place.recipes {} skin.name labels ++ late) ∧
        List.Forall₂ Recipe.SameButSkin (place.recipes {} skin.name skin.body)
          (place.recipes {} skin.name labels) ∧
        (all {} (place.text labels)).issues = (all {} t).issues := by
  intro skin module t labels
  have found : (module, ⟨0, 132⟩) ∈ (Block.located .module t).value := by decide +kernel
  have first : (Block.located .xuiSkin module.body).value.head? = some (skin, ⟨1, 44⟩) := by
    decide +kernel
  have balanced : Brace.Balanced labels := by
    have closes : Brace.close? (labels ++ ['}']) = some (labels, []) := by decide +kernel
    exact (Brace.close?_eq_some_iff.mp closes).2
  obtain ⟨place, early, late, text, -, -, -, old, relabelled⟩ := all_relabelled {} found first
  obtain ⟨-, -, before, -, -⟩ := relabelled skin.body old
  obtain ⟨holds, -, value, same, issues⟩ := relabelled labels balanced
  rw [text] at before
  exact ⟨found, first, balanced, place, early, late, text, holds, before, value, same, issues⟩

end Construction

end CraftScript
