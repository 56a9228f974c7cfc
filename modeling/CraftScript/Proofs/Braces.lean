import CraftScript.Brace
import Mathlib.Data.List.TakeWhile

/-! Balanced texts, and the blocks that brace matching finds. Balance is said by counting braces in
prefixes, without the matching itself. -/
namespace CraftScript

namespace Text

def Braceless (t : Text) : Prop :=
  ∀ c ∈ t, c ≠ '{' ∧ c ≠ '}'

theorem braceless_append {s t : Text} : Braceless (s ++ t) ↔ Braceless s ∧ Braceless t := by
  constructor
  · intro free
    exact ⟨fun c inside => free c (by simp [inside]), fun c inside => free c (by simp [inside])⟩
  · rintro ⟨left, right⟩ c inside
    rcases List.mem_append.mp inside with early | late
    · exact left c early
    · exact right c late

theorem Braceless.not_mem {t : Text} (free : Braceless t) : '{' ∉ t ∧ '}' ∉ t :=
  ⟨fun inside => (free '{' inside).1 rfl, fun inside => (free '}' inside).2 rfl⟩

theorem first_brace_unique {s s' rest rest' : Text} {b b' : Char} (left : Braceless s)
    (right : Braceless s') (brace : b = '{' ∨ b = '}') (brace' : b' = '{' ∨ b' = '}')
    (same : s ++ b :: rest = s' ++ b' :: rest') : s = s' ∧ b = b' ∧ rest = rest' := by
  induction s generalizing s' with
  | nil =>
    cases s' with
    | nil => simpa using same
    | cons c s' =>
      obtain ⟨rfl, -⟩ := List.cons.inj same
      have free := right b (by simp)
      rcases brace with rfl | rfl
      · exact absurd rfl free.1
      · exact absurd rfl free.2
  | cons c s ih =>
    cases s' with
    | nil =>
      obtain ⟨rfl, -⟩ := List.cons.inj same
      have free := left c (by simp)
      rcases brace' with rfl | rfl
      · exact absurd rfl free.1
      · exact absurd rfl free.2
    | cons d s' =>
      obtain ⟨rfl, tail⟩ := List.cons.inj same
      obtain ⟨rfl, rest⟩ := ih (fun e inside => left e (by simp [inside]))
        (fun e inside => right e (by simp [inside])) tail
      exact ⟨rfl, rest⟩

end Text

namespace Brace

/-- Inside `depth` open blocks the text closes all of them and no other: no prefix closes more than
is open, and at the end nothing is. -/
structure Settles (depth : Nat) (t : Text) : Prop where
  sane : ∀ front, front <+: t → front.count '}' ≤ depth + front.count '{'
  settled : t.count '}' = depth + t.count '{'

abbrev Balanced (t : Text) : Prop := Settles 0 t

theorem settles_nil (depth : Nat) : Settles depth [] ↔ depth = 0 := by
  constructor
  · intro settles
    simpa using settles.settled.symm
  · rintro rfl
    exact ⟨fun front inside => by simp [List.prefix_nil.mp inside], by simp⟩

private theorem settles_step {before after : Nat} {c : Char} {t : Text}
    (same : ∀ front : Text, (c :: front).count '}' + after + front.count '{' =
      before + (c :: front).count '{' + front.count '}') :
    Settles before (c :: t) ↔ Settles after t := by
  constructor
  · intro settles
    refine ⟨fun front inside => ?_, ?_⟩
    · have bound := settles.sane (c :: front) (List.cons_prefix_cons.mpr ⟨rfl, inside⟩)
      have counts := same front
      omega
    · have total := settles.settled
      have counts := same t
      omega
  · intro settles
    refine ⟨fun front inside => ?_, ?_⟩
    · rcases List.prefix_cons_iff.mp inside with rfl | ⟨rest, rfl, inside⟩
      · simp
      · have bound := settles.sane rest (List.cons_prefix_cons.mp inside).2
        have counts := same rest
        omega
    · have total := settles.settled
      have counts := same t
      omega

theorem settles_open (depth : Nat) (t : Text) :
    Settles depth ('{' :: t) ↔ Settles (depth + 1) t := by
  apply settles_step
  intro front
  simp
  omega

theorem settles_close (depth : Nat) (t : Text) :
    Settles (depth + 1) ('}' :: t) ↔ Settles depth t := by
  apply settles_step
  intro front
  simp
  omega

theorem not_settles_close (t : Text) : ¬ Settles 0 ('}' :: t) := by
  intro settles
  have bound := settles.sane ['}'] (by simp)
  simp at bound

theorem settles_plain (depth : Nat) {c : Char} (t : Text) (notOpen : c ≠ '{')
    (notClose : c ≠ '}') : Settles depth (c :: t) ↔ Settles depth t := by
  apply settles_step
  intro front
  simp [notOpen, notClose]
  omega

/-- A character in front of a text is carried along, where it moves the depth from `before` to
`after` and does not close the outermost block. -/
private theorem map_closed_iff {before after : Nat} {c : Char} {t inside rest : Text}
    {closed : Option (Text × Text)}
    (settles : ∀ t, Settles before (c :: t) ↔ Settles after t)
    (opened : c = '}' → before ≠ 0)
    (found : ∀ inner, closed = some (inner, rest) ↔
      t = inner ++ '}' :: rest ∧ Settles after inner) :
    closed.map (fun (inner, rest) => (c :: inner, rest)) = some (inside, rest) ↔
      c :: t = inside ++ '}' :: rest ∧ Settles before inside := by
  cases inside with
  | nil =>
    simp only [Option.map_eq_some_iff, Prod.mk.injEq, reduceCtorEq, false_and, and_false,
      exists_false, List.nil_append, List.cons.injEq, settles_nil, false_iff, not_and]
    rintro ⟨same, -⟩
    exact opened same
  | cons first inside =>
    simp only [Option.map_eq_some_iff, Prod.exists, Prod.mk.injEq, List.cons.injEq,
      List.cons_append]
    constructor
    · rintro ⟨inner, behind, same, ⟨rfl, rfl⟩, rfl⟩
      obtain ⟨whole, inner⟩ := (found _).mp same
      exact ⟨⟨rfl, whole⟩, (settles _).mpr inner⟩
    · rintro ⟨⟨rfl, whole⟩, inner⟩
      exact ⟨inside, rest, (found _).mpr ⟨whole, (settles _).mp inner⟩, ⟨rfl, rfl⟩, rfl⟩

/-- Matching finds the brace where the depth has settled, and no other. -/
theorem closeFrom?_eq_some_iff {depth : Nat} {t inside rest : Text} :
    closeFrom? depth t = some (inside, rest) ↔
      t = inside ++ '}' :: rest ∧ Settles depth inside := by
  fun_induction closeFrom? depth t generalizing inside with
  | case1 => simp
  | case2 t =>
    cases inside with
    | nil => simp [settles_nil]
    | cons c inside =>
      simp only [Option.some.injEq, Prod.mk.injEq, reduceCtorEq, false_and, List.cons_append,
        List.cons.injEq, false_iff, not_and]
      rintro ⟨rfl, -⟩
      exact not_settles_close inside
  | case3 depth t ih => exact map_closed_iff (settles_close depth) (by simp) (fun _ => ih)
  | case4 depth t ih => exact map_closed_iff (settles_open depth) (by simp) (fun _ => ih)
  | case5 depth c t notLast notClose notOpen ih =>
    have closes : c ≠ '}' := by
      rintro rfl
      cases depth with
      | zero => exact notLast rfl rfl
      | succ depth => exact notClose depth rfl rfl
    exact map_closed_iff (fun t => settles_plain depth t notOpen closes)
      (fun same => absurd same closes) (fun _ => ih)

theorem close?_eq_some_iff {t inside rest : Text} :
    close? t = some (inside, rest) ↔ t = inside ++ '}' :: rest ∧ Balanced inside :=
  closeFrom?_eq_some_iff

theorem close?_balanced {inside : Text} (balanced : Balanced inside) (rest : Text) :
    close? (inside ++ '}' :: rest) = some (inside, rest) :=
  close?_eq_some_iff.mpr ⟨rfl, balanced⟩

def Encloses (t : Text) : Prop :=
  ∃ before inside after, t = before ++ '{' :: (inside ++ '}' :: after) ∧ '{' ∉ before ∧
    Balanced inside

theorem firstBlock?_isSome_iff (t : Text) : (firstBlock? t).isSome ↔ Encloses t := by
  have parts := List.takeWhile_append_dropWhile (p := (· ≠ '{')) (l := t)
  have early : '{' ∉ t.takeWhile (· ≠ '{') := by
    intro inside
    simpa using List.mem_takeWhile_imp inside
  constructor
  · intro found
    obtain ⟨⟨inside, after⟩, found⟩ := Option.isSome_iff_exists.mp found
    unfold firstBlock? at found
    split at found
    next => contradiction
    next first tail dropped =>
      have first_eq : first = '{' := by
        have head := List.head?_dropWhile_not (· ≠ '{') t
        rw [dropped] at head
        simpa using head
      obtain ⟨rfl, balanced⟩ := close?_eq_some_iff.mp found
      refine ⟨t.takeWhile (· ≠ '{'), inside, after, ?_, early, balanced⟩
      rw [first_eq] at dropped
      rw [← dropped, parts]
  · rintro ⟨before, inside, after, rfl, absent, balanced⟩
    have dropped : (before ++ '{' :: (inside ++ '}' :: after)).dropWhile (· ≠ '{') =
        '{' :: (inside ++ '}' :: after) := by
      rw [List.dropWhile_append_of_pos]
      · simp
      · intro c member
        simpa using fun same : c = '{' => absent (same ▸ member)
    unfold firstBlock?
    rw [dropped]
    simp [close?_eq_some_iff.mpr ⟨rfl, balanced⟩]

theorem settles_append {depth : Nat} {s t : Text} (left : Balanced s) (right : Settles depth t) :
    Settles depth (s ++ t) := by
  have total := left.settled
  refine ⟨fun front inside => ?_, ?_⟩
  · obtain ⟨back, whole⟩ := inside
    rcases List.append_eq_append_iff.mp whole with ⟨between, early, -⟩ | ⟨between, rfl, late⟩
    · have bound := left.sane front ⟨between, early.symm⟩
      omega
    · have bound := right.sane between ⟨back, late.symm⟩
      simp only [List.count_append]
      omega
  · have sum := right.settled
    simp only [List.count_append]
    omega

theorem balanced_of_braceless {t : Text} (free : Text.Braceless t) : Balanced t := by
  induction t with
  | nil => exact (settles_nil 0).mpr rfl
  | cons c t ih =>
    obtain ⟨notOpen, notClose⟩ := free c (by simp)
    exact (settles_plain 0 t notOpen notClose).mpr (ih fun d inside => free d (by simp [inside]))

theorem balanced_enclosed {t : Text} (balanced : Balanced t) {rest : Text} (after : Balanced rest) :
    Balanced ('{' :: (t ++ '}' :: rest)) := by
  rw [Balanced, settles_open]
  exact settles_append balanced ((settles_close 0 rest).mpr after)

end Brace

end CraftScript
