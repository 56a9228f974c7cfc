import CraftScript.Proofs.Search

/-! Texts parted by a search. A grammar says what a value looks like where it stands, apart from any
search. It parts a text in one way into regions that hold values and runs in which none begins, and a
search for the values walks along this parting. -/
namespace CraftScript

open Text

/-- How a value is written: what may stand before it, the region it fills, and what may follow. -/
abbrev Grammar (α : Type) := (previous : Option Char) → (value : α) → (region after : Text) → Prop

structure Pattern.Reads {α : Type} (p : Pattern α) (grammar : Grammar α) : Prop where
  iff {previous : Option Char} {t after : Text} {value : α} :
    p previous t = some (value, after) ↔
      ∃ region, t = region ++ after ∧ grammar previous value region after
  filled {previous : Option Char} {value : α} {region after : Text} :
    grammar previous value region after → region ≠ []

def Grammar.Bare {α : Type} (grammar : Grammar α) (previous : Option Char) (run behind : Text) : Prop :=
  ∀ front c back, run = front ++ c :: back → ∀ value region after,
    c :: (back ++ behind) = region ++ after → ¬ grammar (lastOf previous front) value region after

/-- A text as the values in it part it: runs that lie outside, and the regions between them. -/
inductive Parting (α : Type) where
  | last (run : Text)
  | found (run : Text) (value : α) (region : Text) (rest : Parting α)
deriving Repr

namespace Parting

variable {α : Type} {p : Pattern α} {grammar : Grammar α} {previous : Option Char}

def source : Parting α → Text
  | last run => run
  | found run _ region rest => run ++ (region ++ rest.source)

def runs : Parting α → List Text
  | last run => [run]
  | found run _ _ rest => run :: rest.runs

def values : Parting α → List α
  | last _ => []
  | found _ value _ rest => value :: rest.values

def pieces : Parting α → List (Piece α)
  | last run => run.map .kept
  | found run value region rest => run.map .kept ++ .found value region :: rest.pieces

def Sound (grammar : Grammar α) : Option Char → Parting α → Prop
  | previous, last run => grammar.Bare previous run []
  | previous, found run value region rest =>
    grammar.Bare previous run (region ++ rest.source) ∧
      grammar (lastOf previous run) value region rest.source ∧
      rest.Sound grammar (lastOf previous (run ++ region))

theorem bare_iff_silent (reads : p.Reads grammar) {run behind : Text} :
    grammar.Bare previous run behind ↔ p.Silent previous run behind := by
  constructor
  · intro bare front c back split
    rw [Option.eq_none_iff_forall_ne_some]
    rintro ⟨value, after⟩ read
    obtain ⟨region, same, written⟩ := reads.iff.mp read
    exact bare front c back split value region after same written
  · intro silent front c back split value region after same written
    have read := reads.iff.mpr ⟨region, same, written⟩
    rw [silent front c back split] at read
    contradiction

theorem piecesFrom_source (reads : p.Reads grammar) {parting : Parting α}
    (sound : parting.Sound grammar previous) :
    p.piecesFrom 0 previous parting.source = parting.pieces := by
  induction parting generalizing previous with
  | last run =>
    rw [source, pieces, Pattern.piecesFrom_of_silent ((bare_iff_silent reads).mp sound)]
  | found run value region rest ih =>
    obtain ⟨bare, written, later⟩ := sound
    have read := reads.iff.mpr ⟨region, rfl, written⟩
    rw [lastOf_append] at later
    rw [source, pieces, Pattern.piecesFrom_silent ((bare_iff_silent reads).mp bare),
      Pattern.piecesFrom_found (reads.filled written) read, ih later]

theorem filterMap_value?_pieces (parting : Parting α) :
    parting.pieces.filterMap Piece.value? = parting.values := by
  induction parting with
  | last run => exact Piece.filterMap_value?_kept run
  | found run value region rest ih =>
    rw [pieces, List.filterMap_append, Piece.filterMap_value?_kept, List.nil_append,
      List.filterMap_cons, ih]
    rfl

theorem flatMap_replaced_pieces (parting : Parting α) :
    parting.pieces.flatMap (Piece.replaced []) = parting.runs.flatten := by
  induction parting with
  | last run => simp [pieces, runs]
  | found run value region rest ih =>
    rw [pieces, List.flatMap_append, Piece.flatMap_replaced_kept, List.flatMap_cons, ih]
    rfl

/-- Taking out all values takes out their regions and leaves the runs. -/
theorem takeAll_source (reads : p.Reads grammar) {parting : Parting α}
    (sound : parting.Sound grammar none) :
    p.takeAll [] parting.source = (parting.values, parting.runs.flatten) := by
  rw [Pattern.takeAll, Pattern.pieces, piecesFrom_source reads sound, filterMap_value?_pieces,
    flatMap_replaced_pieces]

theorem exists_sound (reads : p.Reads grammar) (previous : Option Char) (t : Text) :
    ∃ parting : Parting α, parting.source = t ∧ parting.Sound grammar previous := by
  induction size : t.length using Nat.strong_induction_on generalizing t previous with
  | _ n ih =>
    cases first : p.firstFrom? previous t with
    | none => exact ⟨last t, rfl, (bare_iff_silent reads).mpr (Pattern.silent_of_firstFrom? first)⟩
    | some found =>
      obtain ⟨here, split, read⟩ := Pattern.firstFrom?_eq_some first
      have silent := Pattern.silent_before_firstFrom? first split
      obtain ⟨region, rfl, written⟩ := reads.iff.mp read
      have filled := List.length_pos_iff.mpr (reads.filled written)
      have shorter : found.after.length < n := by
        rw [← size, split, List.length_append, List.length_append]
        omega
      obtain ⟨rest, whole, sound⟩ := ih found.after.length shorter
        (lastOf previous (found.before ++ region)) found.after rfl
      rw [← whole] at silent written split
      exact ⟨Parting.found found.before found.value region rest, split.symm,
        (bare_iff_silent reads).mpr silent, written, sound⟩

theorem length_le_of_bare {run run' region after behind : Text} {value : α}
    (bare : grammar.Bare previous run behind)
    (written : grammar (lastOf previous run') value region after)
    (same : run ++ behind = run' ++ (region ++ after)) : run.length ≤ run'.length := by
  by_contra longer
  obtain ⟨between, rfl⟩ : run' <+: run :=
    List.prefix_of_prefix_length_le ⟨_, same.symm⟩ (List.prefix_append run behind) (by omega)
  obtain ⟨c, back, rfl⟩ : ∃ c back, between = c :: back := by
    apply List.exists_cons_of_ne_nil
    rintro rfl
    simp at longer
  rw [List.append_assoc, List.append_cancel_left_eq] at same
  exact bare run' c back rfl value region after same written

theorem eq_of_source (reads : p.Reads grammar) {parting other : Parting α}
    (sound : parting.Sound grammar previous) (sound' : other.Sound grammar previous)
    (same : parting.source = other.source) : parting = other := by
  induction parting generalizing previous other with
  | last run =>
    cases other with
    | last run' => rw [show run = run' from same]
    | found run' value region rest =>
      have filled := List.length_pos_iff.mpr (reads.filled sound'.2.1)
      have size := congrArg List.length same
      have short := length_le_of_bare sound sound'.2.1 ((List.append_nil run).trans same)
      simp only [source, List.length_append] at size
      omega
  | found run value region rest ih =>
    obtain ⟨bare, written, later⟩ := sound
    cases other with
    | last run' =>
      have filled := List.length_pos_iff.mpr (reads.filled written)
      have size := congrArg List.length same
      have short := length_le_of_bare sound' written ((List.append_nil run').trans same.symm)
      simp only [source, List.length_append] at size
      omega
    | found run' value' region' rest' =>
      obtain ⟨bare', written', later'⟩ := sound'
      have size : run.length = run'.length :=
        Nat.le_antisymm (length_le_of_bare bare written' same) (length_le_of_bare bare' written same.symm)
      obtain ⟨rfl, behind⟩ := List.append_inj same size
      have read := reads.iff.mpr ⟨region, rfl, written⟩
      rw [behind, reads.iff.mpr ⟨region', rfl, written'⟩] at read
      obtain ⟨rfl, behindSame⟩ := Prod.mk.inj (Option.some.inj read)
      rw [behindSame, List.append_cancel_right_eq] at behind
      subst behind
      rw [ih later later' behindSame.symm]

theorem exists_only (reads : p.Reads grammar) (t : Text) :
    ∃ parting : Parting α,
      ∀ other : Parting α, other.source = t ∧ other.Sound grammar none ↔ other = parting := by
  obtain ⟨parting, rfl, sound⟩ := exists_sound reads none t
  refine ⟨parting, fun other => ⟨fun parts => eq_of_source reads parts.2 sound parts.1, ?_⟩⟩
  rintro rfl
  exact ⟨rfl, sound⟩

/-- A part that holds no character that can stand before a region does not reach over a seam. -/
theorem flatten_runs_eq_iff {parting : Parting α} (sound : parting.Sound grammar previous)
    {part front back : Text}
    (edge : ∀ c value region after, grammar (some c) value region after → c ∉ part) :
    parting.runs.flatten = front ++ part ++ back ↔
      ∃ early run late before after, parting.runs = early ++ run :: late ∧
        run = before ++ part ++ after ∧ front = early.flatten ++ before ∧
        back = after ++ late.flatten := by
  constructor
  · intro whole
    induction parting generalizing previous front with
    | last run => exact ⟨[], run, [], front, back, rfl, by simpa [runs] using whole, by simp⟩
    | found run value region rest ih =>
      obtain ⟨-, written, later⟩ := sound
      have deeper : ∀ front', front = run ++ front' → rest.runs.flatten = front' ++ part ++ back →
          ∃ early kept late before after, (found run value region rest).runs = early ++ kept :: late ∧
            kept = before ++ part ++ after ∧ front = early.flatten ++ before ∧
            back = after ++ late.flatten := by
        rintro front' rfl inside
        obtain ⟨early, kept, late, before, after, lined, same, rfl, rfl⟩ := ih later inside
        exact ⟨run :: early, kept, late, before, after, by rw [runs, lined]; rfl, same, by simp, rfl⟩
      rw [runs, List.flatten_cons] at whole
      rcases List.append_eq_append_iff.mp whole with ⟨between, early, inside⟩ | ⟨after, rfl, rfl⟩
      · rcases List.append_eq_append_iff.mp early with ⟨begun, rfl, rfl⟩ | ⟨more, rfl, rfl⟩
        · rcases List.eq_nil_or_concat' begun with rfl | ⟨begun, c, rfl⟩
          · exact deeper [] (by simp) (by simpa using inside)
          · -- The part would begin in the run and go on behind the region.
            have ends : lastOf previous (front ++ (begun ++ [c])) = some c := by simp
            rw [ends] at written
            exact absurd (by simp) (edge c value region _ written)
        · exact deeper more rfl inside
      · exact ⟨[], _, rest.runs, front, after, rfl, rfl, by simp, rfl⟩
  · rintro ⟨early, run, late, before, after, lined, rfl, rfl, rfl⟩
    rw [lined]
    simp

end Parting

end CraftScript
