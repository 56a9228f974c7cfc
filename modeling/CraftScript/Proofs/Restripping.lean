import CraftScript.Proofs.CommentRegions
import CraftScript.Proofs.IssueOrder

/-! Stripping a second time. A comment that is cut out leaves nothing in its place, so that a slash
before it and a star behind it can meet. That is the only way in which a stripped text opens a comment
again, and where it does not happen the recipes keep their lines as they are. -/
namespace CraftScript

open Text
open Canonical (unlines)

namespace Comment

/-- A run that ends with a slash, and a star at the front of the next run that is not empty. -/
def Meets (runs : List Text) : Prop :=
  ∃ early run between next late, runs = early ++ run :: (between ++ next :: late) ∧
    run.getLast? = some '/' ∧ (∀ empty ∈ between, empty = []) ∧ next.head? = some '*'

theorem isInfix_append_iff (s t : Text) :
    ['/', '*'] <:+: s ++ t ↔ ['/', '*'] <:+: s ∨ ['/', '*'] <:+: t ∨
      s.getLast? = some '/' ∧ t.head? = some '*' := by
  induction s with
  | nil => simp
  | cons c s ih =>
    rw [List.cons_append, List.infix_cons_iff, ih, List.infix_cons_iff]
    cases s with
    | nil =>
      have here : ['/', '*'] <+: c :: t ↔ c = '/' ∧ t.head? = some '*' := by
        cases t <;> simp [eq_comm]
      have alone : ¬ ['/', '*'] <+: [c] := by simp
      simp [here, alone, or_comm]
    | cons d s => simp [or_assoc]

theorem head?_flatten_iff {runs : List Text} {c : Char} :
    runs.flatten.head? = some c ↔ ∃ between next late, runs = between ++ next :: late ∧
      (∀ empty ∈ between, empty = []) ∧ next.head? = some c := by
  induction runs with
  | nil => simp
  | cons run runs ih =>
    constructor
    · intro starts
      by_cases bare : run = []
      · rw [bare, List.flatten_cons, List.nil_append] at starts
        obtain ⟨between, next, late, rfl, empty, head⟩ := ih.mp starts
        exact ⟨run :: between, next, late, rfl, by simpa [bare] using empty, head⟩
      · rw [List.flatten_cons, List.head?_append_of_ne_nil run bare] at starts
        exact ⟨[], run, runs, rfl, by simp, starts⟩
    · rintro ⟨between, next, late, split, empty, head⟩
      cases between with
      | nil =>
        obtain ⟨rfl, rfl⟩ := List.cons.inj split
        rw [List.flatten_cons, List.head?_append, head]
        rfl
      | cons first between =>
        obtain ⟨rfl, rfl⟩ := List.cons.inj split
        rw [empty run (by simp), List.flatten_cons, List.nil_append]
        exact ih.mpr ⟨between, next, late, rfl, fun e inside => empty e (by simp [inside]), head⟩

theorem meets_cons (run : Text) (runs : List Text) :
    Meets (run :: runs) ↔
      run.getLast? = some '/' ∧ runs.flatten.head? = some '*' ∨ Meets runs := by
  rw [head?_flatten_iff]
  constructor
  · rintro ⟨early, slash, between, next, late, split, ends, empty, starts⟩
    cases early with
    | nil =>
      obtain ⟨rfl, rfl⟩ := List.cons.inj split
      exact .inl ⟨ends, between, next, late, rfl, empty, starts⟩
    | cons first early =>
      obtain ⟨rfl, rfl⟩ := List.cons.inj split
      exact .inr ⟨early, slash, between, next, late, rfl, ends, empty, starts⟩
  · rintro (⟨ends, between, next, late, rfl, empty, starts⟩ |
      ⟨early, slash, between, next, late, rfl, ends, empty, starts⟩)
    · exact ⟨[], run, between, next, late, rfl, ends, empty, starts⟩
    · exact ⟨run :: early, slash, between, next, late, rfl, ends, empty, starts⟩

/-- Of runs that open no comment, one behind the other open one where they meet. -/
theorem isInfix_flatten_iff {runs : List Text} (free : ∀ run ∈ runs, ¬ ['/', '*'] <:+: run) :
    ['/', '*'] <:+: runs.flatten ↔ Meets runs := by
  induction runs with
  | nil => simp [Meets]
  | cons run runs ih =>
    have later := ih fun other member => free other (by simp [member])
    have here := free run (by simp)
    rw [List.flatten_cons, isInfix_append_iff, meets_cons, later]
    simp [here, or_comm]

namespace Parting

theorem length_runs_le {parting : Parting} : parting.runs.flatten.length ≤ parting.source.length := by
  induction parting with
  | last run => simp [runs, source, before]
  | unclosed run tail => simp [runs, source, before]
  | closed run region rest ih =>
    rw [source_closed, runs]
    simp only [List.flatten_cons, List.length_append]
    omega

theorem eq_last_of_runs {parting : Parting} (sound : parting.Sound)
    (whole : parting.runs.flatten = parting.source) : ∃ run, parting = last run := by
  have size := congrArg List.length whole
  cases parting with
  | last run => exact ⟨run, rfl⟩
  | unclosed run tail =>
    have starts := (sound.unclosed tail rfl).starts.length_le
    have empty : tail = [] := by simpa [runs, source, before, unclosed?] using size
    simp [empty] at starts
  | closed run region rest =>
    have starts := (sound_closed.mp sound).2.1.starts.length_le
    have bound := @length_runs_le rest
    rw [source_closed, runs] at size
    simp only [List.flatten_cons, List.length_append, List.length_cons] at size starts
    omega

end Parting

theorem strip_eq_self_iff (t : Text) : (strip t).text = t ↔ ¬ ['/', '*'] <:+: t := by
  constructor
  · intro same
    obtain ⟨parting, rfl, sound⟩ := Parting.exists_sound t
    rw [Parting.strip_source sound] at same
    obtain ⟨run, rfl⟩ := Parting.eq_last_of_runs sound same
    rw [Parting.source_eq, Parting.behind, List.append_nil]
    exact sound.first
  · intro free
    rw [strip_signless]
    rw [Bool.eq_false_iff, ne_eq, occurs_iff_isInfix]
    exact free

end Comment

namespace RecipeSource

def completing (state : Option Gathering) (line : Text) : List Gathering :=
  match state <|> (header? line).map fun name => { name := name } with
  | none => []
  | some current => if (current.push line).isComplete then [current.push line] else []

def gathered : Option Gathering → List Text → List Gathering
  | _, [] => []
  | state, line :: lines => completing state line ++ gathered (advance state line) lines

theorem completed_eq (state : Option Gathering) (line : Text) :
    completed state line = (completing state line).map Gathering.finish := by
  rw [completed, completing]
  cases state <|> (header? line).map fun name => { name := name } with
  | none => rfl
  | some current =>
    dsimp only
    split <;> rfl

theorem gather_eq_gathered (state : Option Gathering) (lines : List Text) :
    (gather state lines).1 = (gathered state lines).map Gathering.finish := by
  induction lines generalizing state with
  | nil => rfl
  | cons line lines ih => rw [gather_cons, gathered, List.map_append, ih, completed_eq]

theorem completing_cases (state : Option Gathering) (line : Text) :
    completing state line = [] ∧ advance state line = none ∨
      ∃ grown : Gathering, grown.lines = held state ++ [line] ∧
        (completing state line = [grown] ∧ advance state line = none ∨
          completing state line = [] ∧ advance state line = some grown) := by
  rw [completing, advance]
  cases begun : state <|> (header? line).map fun name => { name := name } with
  | none => exact .inl ⟨rfl, rfl⟩
  | some current =>
    refine .inr ⟨current.push line, ?_, ?_⟩
    · cases state with
      | some gathering => simp [held, Gathering.push, ← Option.some.inj begun]
      | none =>
        obtain ⟨name, -, rfl⟩ := Option.map_eq_some_iff.mp begun
        rfl
    · by_cases complete : (current.push line).isComplete
      · exact .inl (by simp [complete])
      · exact .inr (by simp [complete])

theorem mem_of_gathered {state : Option Gathering} {lines : List Text} {gathering : Gathering}
    (member : gathering ∈ gathered state lines) :
    ∀ line ∈ gathering.lines, line ∈ held state ++ lines := by
  induction lines generalizing state with
  | nil => simp [gathered] at member
  | cons line lines ih =>
    intro other inside
    rw [gathered] at member
    rcases completing_cases state line with
      ⟨nothing, idle⟩ | ⟨grown, lined, ⟨one, idle⟩ | ⟨nothing, grows⟩⟩
    · rw [nothing, idle, List.nil_append] at member
      have later : other ∈ lines := ih member other inside
      simp [later]
    · rw [one, idle, List.singleton_append] at member
      rcases List.mem_cons.mp member with rfl | member
      · rw [lined] at inside
        simpa using List.mem_append_left lines inside
      · have later : other ∈ lines := ih member other inside
        simp [later]
    · rw [nothing, grows, List.nil_append] at member
      simpa [held, lined] using ih member other inside

theorem signless_line {t line : Text} (free : ¬ ['/', '*'] <:+: t) (member : line ∈ t.lines) :
    ¬ ['/', '*'] <:+: line ++ ['\n'] := by
  intro found
  obtain ⟨front, back, split⟩ := List.append_of_mem member
  have within : line ++ ['\n'] <:+: unlines t.lines :=
    ⟨unlines front, unlines back, by simp [unlines, split]⟩
  exact free (isInfix_of_unlines ⟨by simp, by decide⟩ (found.trans within))

theorem finish_eq_self {t : Text} (free : ¬ ['/', '*'] <:+: t) {gathering : Gathering}
    (member : gathering ∈ gathered none t.lines) :
    gathering.finish = ⟨gathering.name, gathering.text⟩ := by
  have each : ∀ run ∈ gathering.lines.map (· ++ ['\n']), ¬ ['/', '*'] <:+: run := by
    intro run inside
    obtain ⟨line, own, rfl⟩ := List.mem_map.mp inside
    exact signless_line free (mem_of_gathered member line own)
  have closed : ¬ ['/', '*'] <:+: gathering.text := by
    rw [Gathering.text, List.flatMap, Comment.isInfix_flatten_iff each]
    rintro ⟨early, run, between, next, late, split, ends, -, -⟩
    obtain ⟨line, -, rfl⟩ : ∃ line ∈ gathering.lines, line ++ ['\n'] = run := by
      rw [← List.mem_map, split]
      simp
    simp at ends
  rw [Gathering.finish, (Comment.strip_eq_self_iff _).mpr closed]

end RecipeSource

/-- Stripping again changes nothing exactly when the stripped text opens no comment, and it opens one
exactly when a slash and a star meet where comments were cut out. Where none do, the recipes of the
stripped text hold their lines as they were gathered. -/
theorem Comment.strip_strip_iff (t : Text) :
    ∃ parting : Parting, (∀ other : Parting, other.source = t ∧ other.Sound ↔ other = parting) ∧
      ((strip (strip t).text).text = (strip t).text ↔ ¬ ['/', '*'] <:+: (strip t).text) ∧
      (['/', '*'] <:+: (strip t).text ↔ Meets parting.runs) ∧
      (RecipeSource.all (strip t).text).value =
        (RecipeSource.gathered none (strip t).text.lines).map RecipeSource.Gathering.finish ∧
      (¬ Meets parting.runs → ∀ gathering ∈ RecipeSource.gathered none (strip t).text.lines,
        gathering.finish = ⟨gathering.name, gathering.text⟩) := by
  obtain ⟨parting, only⟩ := Parting.exists_only t
  obtain ⟨whole, sound⟩ := (only parting).mpr rfl
  have kept : (strip t).text = parting.runs.flatten := by rw [← whole, Parting.strip_source sound]
  have opens : ['/', '*'] <:+: (strip t).text ↔ Meets parting.runs := by
    rw [kept, isInfix_flatten_iff sound.runs]
  refine ⟨parting, only, strip_eq_self_iff _, opens, ?_, fun apart => ?_⟩
  · exact RecipeSource.gather_eq_gathered none _
  · intro gathering member
    exact RecipeSource.finish_eq_self (fun found => apart (opens.mp found)) member

end CraftScript
