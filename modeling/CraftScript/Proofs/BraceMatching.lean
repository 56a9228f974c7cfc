import CraftScript.Proofs.Braces
import CraftScript.Proofs.Bytewise.Scanning
import Mathlib.Order.Bounds.Basic

/-! Brace matching by byte positions. The block at a byte is the least stretch, from the first
opening brace on, that holds as many closing braces as opening ones. There is none exactly when there
is no such stretch, or no brace, or no character that begins at the byte. -/
namespace CraftScript

namespace Text

theorem slice?_from_iff {t front rest block : Text} {stop : Nat} (whole : t = front ++ rest) :
    t.slice? ⟨byteSize front, stop⟩ = some block ↔
      block <+: rest ∧ stop = byteSize (front ++ block) := by
  constructor
  · intro taken
    have fits : Fits t ⟨byteSize front, stop⟩ := (slice?_isSome_iff ..).mp (by rw [taken]; rfl)
    obtain ⟨front', inside, after, split, same⟩ := (fits_iff ..).mp fits
    obtain ⟨starts, stops⟩ := Span.mk.inj same
    rw [same, slice?_eq_some split] at taken
    obtain rfl := Option.some.inj taken
    have cut := splitBytes?_append front' (inside ++ after)
    rw [← List.append_assoc, ← split, ← starts, whole, splitBytes?_append] at cut
    obtain ⟨rfl, rfl⟩ := Prod.mk.inj (Option.some.inj cut)
    exact ⟨List.prefix_append inside after, stops⟩
  · rintro ⟨⟨after, rfl⟩, rfl⟩
    exact slice?_eq_some (by rw [whole, List.append_assoc])

def SplitsChar (t : Text) (n : Nat) : Prop :=
  ∃ front c rest, t = front ++ c :: rest ∧ byteSize front < n ∧ n < byteSize (front ++ [c])

theorem isBoundary_cons (c : Char) {t : Text} {n : Nat} (boundary : IsBoundary t n) :
    IsBoundary (c :: t) (c.utf8Size + n) := by
  obtain ⟨front, within, rfl⟩ := boundary
  exact ⟨c :: front, List.cons_prefix_cons.mpr ⟨rfl, within⟩, rfl⟩

theorem splitsChar_cons (c : Char) {t : Text} {n : Nat} (splits : SplitsChar t n) :
    SplitsChar (c :: t) (c.utf8Size + n) := by
  obtain ⟨front, d, rest, rfl, early, late⟩ := splits
  refine ⟨c :: front, d, rest, rfl, ?_, ?_⟩
  · rw [byteSize]
    omega
  · rw [List.cons_append, byteSize]
    omega

theorem isBoundary_or (t : Text) (n : Nat) :
    IsBoundary t n ∨ byteSize t < n ∨ SplitsChar t n := by
  induction t generalizing n with
  | nil =>
    rcases Nat.eq_zero_or_pos n with rfl | behind
    · exact .inl ⟨[], List.nil_prefix, rfl⟩
    · exact .inr (.inl behind)
  | cons c t ih =>
    rcases Nat.eq_zero_or_pos n with rfl | behind
    · exact .inl ⟨[], List.nil_prefix, rfl⟩
    by_cases inside : n < c.utf8Size
    · exact .inr (.inr ⟨[], c, t, rfl, behind, inside⟩)
    obtain ⟨n, rfl⟩ := Nat.exists_eq_add_of_le (Nat.le_of_not_lt inside)
    rcases ih n with boundary | past | splits
    · exact .inl (isBoundary_cons c boundary)
    · exact .inr (.inl (Nat.add_lt_add_left past _))
    · exact .inr (.inr (splitsChar_cons c splits))

theorem isPrefix_of_byteSize_le {front long t : Text} (early : front <+: t) (late : long <+: t)
    (shorter : byteSize front ≤ byteSize long) : front <+: long := by
  rcases List.prefix_or_prefix_of_prefix early late with within | ⟨more, rfl⟩
  · exact within
  · rw [byteSize_append] at shorter
    have nothing : more = [] := eq_nil_of_byteSize (by omega)
    exact ⟨[], by rw [nothing, List.append_nil, List.append_nil]⟩

/-- A text that is parted twice, the second time within a part of the first. -/
theorem exists_split_within {front text after long rest : Text}
    (same : front ++ text ++ after = long ++ rest) (begun : byteSize front ≤ byteSize long)
    (within : byteSize long < byteSize (front ++ text)) :
    ∃ early late, long = front ++ early ∧ text = early ++ late ∧ late ≠ [] ∧
      rest = late ++ after := by
  have known : long <+: front ++ text ++ after := ⟨rest, same.symm⟩
  obtain ⟨early, rfl⟩ := isPrefix_of_byteSize_le ⟨text ++ after, by simp⟩ known begun
  obtain ⟨late, parts⟩ := isPrefix_of_byteSize_le known (List.prefix_append _ after)
    (Nat.le_of_lt within)
  rw [List.append_assoc, List.append_cancel_left_eq] at parts
  subst parts
  refine ⟨early, late, rfl, rfl, ?_, by simpa using same.symm⟩
  rintro rfl
  simp at within

theorem not_isBoundary_iff (t : Text) (n : Nat) :
    ¬ IsBoundary t n ↔ byteSize t < n ∨ SplitsChar t n := by
  constructor
  · intro off
    exact (isBoundary_or t n).resolve_left off
  · rintro (past | ⟨front, c, rest, rfl, early, late⟩) ⟨passed, within, rfl⟩
    · obtain ⟨rest, rfl⟩ := within
      rw [byteSize_append] at past
      omega
    · have known : front ++ [c] <+: front ++ c :: rest := ⟨rest, by simp⟩
      have shorter := isPrefix_of_byteSize_le within known (Nat.le_of_lt late)
      rcases List.prefix_concat_iff.mp shorter with rfl | ⟨more, rfl⟩
      · exact Nat.lt_irrefl _ late
      · rw [byteSize_append] at early
        omega

end Text

namespace Brace

open Text

/-- Inside `depth + 1` open blocks the outermost is open behind every prefix. -/
def StaysOpen (depth : Nat) (t : Text) : Prop :=
  ∀ front, front <+: t → front.count '}' ≤ depth + front.count '{'

private theorem staysOpen_step {before after : Nat} {c : Char} {t : Text}
    (same : ∀ front : Text, (c :: front).count '}' + after + front.count '{' =
      before + (c :: front).count '{' + front.count '}')
    (later : StaysOpen after t) : StaysOpen before (c :: t) := by
  intro front inside
  rcases List.prefix_cons_iff.mp inside with rfl | ⟨rest, rfl, behind⟩
  · simp
  · have bound := later rest behind
    have counts := same rest
    omega

theorem staysOpen_of_closeFrom? {depth : Nat} {t : Text} (unclosed : closeFrom? depth t = none) :
    StaysOpen depth t := by
  fun_induction closeFrom? depth t with
  | case1 depth =>
    intro front inside
    simp [List.prefix_nil.mp inside]
  | case2 t => contradiction
  | case3 depth t ih =>
    refine staysOpen_step (fun front => ?_) (ih (Option.map_eq_none_iff.mp unclosed))
    simp
    omega
  | case4 depth t ih =>
    refine staysOpen_step (fun front => ?_) (ih (Option.map_eq_none_iff.mp unclosed))
    simp
    omega
  | case5 depth c t notLast notClose notOpen ih =>
    have closes : c ≠ '}' := by
      rintro rfl
      cases depth with
      | zero => exact notLast rfl rfl
      | succ depth => exact notClose depth rfl rfl
    refine staysOpen_step (fun front => ?_) (ih (Option.map_eq_none_iff.mp unclosed))
    rw [List.count_cons_of_ne closes, List.count_cons_of_ne notOpen]
    omega

theorem close?_eq_none_iff {t : Text} : close? t = none ↔ StaysOpen 0 t := by
  refine ⟨staysOpen_of_closeFrom?, fun stays => ?_⟩
  rw [Option.eq_none_iff_forall_ne_some]
  rintro ⟨inside, rest⟩ found
  obtain ⟨rfl, balanced⟩ := close?_eq_some_iff.mp found
  have bound := stays (inside ++ ['}']) ⟨rest, by simp⟩
  have total := balanced.settled
  simp [List.count_append] at bound
  omega

theorem firstBlock?_of_mem {before : Text} (absent : '{' ∉ before) (inside : Text) :
    firstBlock? (before ++ '{' :: inside) = close? inside := by
  have plain : ∀ c ∈ before, decide (c ≠ '{') := fun c member =>
    decide_eq_true fun same => absent (same ▸ member)
  rw [firstBlock?, dropWhile_append_stop plain (stops_cons (by decide) inside)]

theorem firstBlock?_of_not_mem {t : Text} (absent : '{' ∉ t) : firstBlock? t = none := by
  have empty : t.dropWhile (· ≠ '{') = [] := by
    rw [List.dropWhile_eq_nil_iff]
    intro c member
    exact decide_eq_true fun same => absent (same ▸ member)
  rw [firstBlock?, empty]

theorem firstBlock?_eq_some_iff {t inside after : Text} :
    firstBlock? t = some (inside, after) ↔
      ∃ before, t = before ++ '{' :: (inside ++ '}' :: after) ∧ '{' ∉ before ∧ Balanced inside := by
  constructor
  · intro found
    by_cases opens : '{' ∈ t
    · obtain ⟨before, tail, rfl, absent⟩ := List.eq_append_cons_of_mem opens
      rw [firstBlock?_of_mem absent] at found
      obtain ⟨rfl, balanced⟩ := close?_eq_some_iff.mp found
      exact ⟨before, rfl, absent, balanced⟩
    · rw [firstBlock?_of_not_mem opens] at found
      contradiction
  · rintro ⟨before, rfl, absent, balanced⟩
    rw [firstBlock?_of_mem absent, close?_balanced balanced]

theorem blockAt?_append (passed tail : Text) :
    blockAt? (passed ++ tail) (byteSize passed) = (firstBlock? tail).map fun (inside, after) =>
      (inside, byteSize (passed ++ tail) - byteSize after) := by
  cases first : firstBlock? tail <;> simp [blockAt?, dropBytes?_append, first]

/-- Where the search for a block comes to: nothing begins at the byte, or no brace opens from there
on, or matching goes on behind the first one that does. -/
theorem blockAt?_cases (t : Text) (start : Nat) :
    (¬ IsBoundary t start ∧ blockAt? t start = none) ∨
    (∃ passed tail, t = passed ++ tail ∧ byteSize passed = start ∧ '{' ∉ tail ∧
      blockAt? t start = none) ∨
    ∃ passed before inside, t = passed ++ before ++ '{' :: inside ∧ byteSize passed = start ∧
      '{' ∉ before ∧ blockAt? t start = (close? inside).map fun (inner, after) =>
        (inner, byteSize t - byteSize after) := by
  by_cases boundary : IsBoundary t start
  · obtain ⟨passed, ⟨tail, rfl⟩, rfl⟩ := boundary
    have found := blockAt?_append passed tail
    by_cases opens : '{' ∈ tail
    · obtain ⟨before, inside, rfl, absent⟩ := List.eq_append_cons_of_mem opens
      rw [firstBlock?_of_mem absent] at found
      exact .inr (.inr ⟨passed, before, inside, by simp, rfl, absent, found⟩)
    · rw [firstBlock?_of_not_mem opens] at found
      exact .inr (.inl ⟨passed, tail, rfl, rfl, opens, found⟩)
  · have cut : t.dropBytes? start = none := by
      rw [← splitBytes?_isSome_iff, Option.not_isSome_iff_eq_none] at boundary
      rw [dropBytes?, boundary, Option.map_none]
    refine .inl ⟨boundary, ?_⟩
    rw [blockAt?, cut]
    rfl

def OpensAt (t : Text) (n : Nat) : Prop :=
  t.slice? ⟨n, n + 1⟩ = some ['{']

def OpensFirst (t : Text) (start opened : Nat) : Prop :=
  IsLeast {n | start ≤ n ∧ OpensAt t n} opened

/-- The text from byte `opened` to byte `stop` is not empty and closes what it opens. -/
def EvenAt (t : Text) (opened stop : Nat) : Prop :=
  ∃ block, block ≠ [] ∧ t.slice? ⟨opened, stop⟩ = some block ∧ block.count '{' = block.count '}'

theorem opensAt_iff {t : Text} {n : Nat} :
    OpensAt t n ↔ ∃ front rest, t = front ++ '{' :: rest ∧ byteSize front = n := by
  constructor
  · intro opens
    have fits : Fits t ⟨n, n + 1⟩ := (slice?_isSome_iff ..).mp (by rw [opens]; rfl)
    obtain ⟨front, ⟨rest, rfl⟩, rfl⟩ := fits.starts
    obtain ⟨⟨after, rfl⟩, -⟩ := (slice?_from_iff rfl).mp opens
    exact ⟨front, after, rfl, rfl⟩
  · rintro ⟨front, rest, rfl, rfl⟩
    refine (slice?_from_iff rfl).mpr ⟨⟨rest, rfl⟩, ?_⟩
    rw [byteSize_append]
    rfl

theorem opensFirst_of_split {t passed before inside : Text}
    (whole : t = passed ++ before ++ '{' :: inside) (absent : '{' ∉ before) :
    OpensFirst t (byteSize passed) (byteSize (passed ++ before)) := by
  refine ⟨⟨?_, opensAt_iff.mpr ⟨_, _, whole, rfl⟩⟩, ?_⟩
  · rw [byteSize_append]
    omega
  · rintro n ⟨behind, opens⟩
    obtain ⟨front, rest, split, rfl⟩ := opensAt_iff.mp opens
    by_contra early
    obtain ⟨_, late, -, rfl, nonempty, starts⟩ :=
      exists_split_within (whole.symm.trans split) behind (Nat.lt_of_not_le early)
    obtain ⟨b, late, rfl⟩ := List.exists_cons_of_ne_nil nonempty
    obtain ⟨rfl, -⟩ := List.cons.inj starts
    exact absent (by simp)

theorem not_opensAt_of_not_mem {passed tail : Text} (absent : '{' ∉ tail) {n : Nat}
    (behind : byteSize passed ≤ n) : ¬ OpensAt (passed ++ tail) n := by
  intro opens
  obtain ⟨front, rest, split, rfl⟩ := opensAt_iff.mp opens
  obtain ⟨between, rfl⟩ := isPrefix_of_byteSize_le (List.prefix_append passed tail)
    ⟨_, split.symm⟩ behind
  rw [List.append_assoc] at split
  exact absent (by rw [List.append_cancel_left split]; simp)

/-- The brace behind `front` stays open exactly when every stretch from it on opens more than it
closes. -/
theorem staysOpen_iff_slices {t front inside : Text} (whole : t = front ++ '{' :: inside) :
    StaysOpen 0 inside ↔ ∀ stop block, byteSize front < stop →
      t.slice? ⟨byteSize front, stop⟩ = some block → block.count '}' < block.count '{' := by
  constructor
  · intro stays stop block behind taken
    obtain ⟨within, rfl⟩ := (slice?_from_iff whole).mp taken
    rcases List.prefix_cons_iff.mp within with rfl | ⟨rest, rfl, later⟩
    · simp at behind
    · have bound := stays rest later
      simp
      omega
  · intro more rest within
    have bound := more (byteSize (front ++ '{' :: rest)) ('{' :: rest) ?_ ?_
    · simp at bound
      omega
    · rw [byteSize_append]
      exact Nat.lt_add_of_pos_right (byteSize_pos (by simp))
    · exact (slice?_from_iff whole).mpr ⟨List.cons_prefix_cons.mpr ⟨rfl, within⟩, rfl⟩

/-- A balanced text in braces is the shortest stretch from its opening brace on that closes what it
opens. -/
theorem isLeast_evenAt {t front inside after : Text} (whole : t = front ++ braced inside ++ after)
    (balanced : Balanced inside) :
    IsLeast {stop | EvenAt t (byteSize front) stop} (byteSize (front ++ braced inside)) := by
  have total := balanced.settled
  rw [List.append_assoc] at whole
  constructor
  · refine ⟨braced inside, by simp [braced], ?_, ?_⟩
    · exact (slice?_from_iff whole).mpr ⟨List.prefix_append _ _, rfl⟩
    · simp [braced, List.count_append]
      omega
  · rintro stop ⟨block, nonempty, taken, even⟩
    obtain ⟨within, rfl⟩ := (slice?_from_iff whole).mp taken
    by_contra early
    -- A shorter stretch ends within the balanced text, where its own brace is still open.
    have shorter : block <+: braced inside :=
      isPrefix_of_byteSize_le within (List.prefix_append _ _) (by simp at early; omega)
    rcases List.prefix_concat_iff.mp shorter with rfl | inner
    · exact early (Nat.le_refl _)
    · rcases List.prefix_cons_iff.mp inner with rfl | ⟨rest, rfl, later⟩
      · exact nonempty rfl
      · have sane := balanced.sane rest later
        simp at even
        omega

theorem exists_of_blockAt? {t inside : Text} {start stop : Nat}
    (found : blockAt? t start = some (inside, stop)) :
    ∃ passed before after, t = passed ++ before ++ braced inside ++ after ∧
      byteSize passed = start ∧ '{' ∉ before ∧ Balanced inside ∧
      byteSize (passed ++ before ++ braced inside) = stop := by
  obtain ⟨-, missing⟩ | ⟨-, -, -, -, -, missing⟩ | ⟨passed, before, tail, whole, rfl, absent, found'⟩ :=
    blockAt?_cases t start
  · simp [missing] at found
  · simp [missing] at found
  · rw [found', Option.map_eq_some_iff] at found
    obtain ⟨⟨inside, after⟩, closed, same⟩ := found
    obtain ⟨rfl, rfl⟩ := Prod.mk.inj same
    obtain ⟨rfl, balanced⟩ := close?_eq_some_iff.mp closed
    have split : t = passed ++ before ++ braced inside ++ after := by simp [whole, braced]
    exact ⟨passed, before, after, split, rfl, absent, balanced, (byteSize_sub split).symm⟩

theorem blockAt?_eq_none_iff (t : Text) (start : Nat) :
    blockAt? t start = none ↔
      byteSize t < start ∨ SplitsChar t start ∨ (∀ n, start ≤ n → ¬ OpensAt t n) ∨
        ∃ opened, OpensFirst t start opened ∧ ∀ stop block, opened < stop →
          t.slice? ⟨opened, stop⟩ = some block → block.count '}' < block.count '{' := by
  obtain ⟨off, missing⟩ | ⟨passed, tail, rfl, rfl, absent, missing⟩ |
    ⟨passed, before, inside, whole, rfl, absent, found⟩ := blockAt?_cases t start
  · rw [not_isBoundary_iff] at off
    simp [missing, ← or_assoc, off]
  · have unopened : ∀ n, byteSize passed ≤ n → ¬ OpensAt (passed ++ tail) n :=
      fun n behind => not_opensAt_of_not_mem absent behind
    rw [missing, eq_self, true_iff]
    exact .inr (.inr (.inl unopened))
  · have first := opensFirst_of_split whole absent
    have boundary : IsBoundary t (byteSize passed) :=
      ⟨passed, ⟨before ++ '{' :: inside, by rw [whole, List.append_assoc]⟩, rfl⟩
    rw [found, Option.map_eq_none_iff, close?_eq_none_iff, staysOpen_iff_slices whole]
    constructor
    · intro more
      exact .inr (.inr (.inr ⟨_, first, more⟩))
    · rintro (past | splits | unopened | ⟨opened, least, more⟩)
      · exact absurd boundary ((not_isBoundary_iff ..).mpr (.inl past))
      · exact absurd boundary ((not_isBoundary_iff ..).mpr (.inr splits))
      · exact absurd first.1.2 (unopened _ first.1.1)
      · rwa [least.unique first] at more

/-- The first block at or behind a byte. None is found exactly when the byte lies behind the text or
inside a character, or no brace opens from there on, or every stretch from the first one on opens more
braces than it closes. Otherwise the block reaches from that brace to the least place where the braces
are even, and its inside is the balanced text between its two outer braces. -/
theorem blockAt?_least_even (t : Text) (start : Nat) :
    (blockAt? t start = none ↔
      byteSize t < start ∨ SplitsChar t start ∨ (∀ n, start ≤ n → ¬ OpensAt t n) ∨
        ∃ opened, OpensFirst t start opened ∧ ∀ stop block, opened < stop →
          t.slice? ⟨opened, stop⟩ = some block → block.count '}' < block.count '{') ∧
    ∀ inside stop, blockAt? t start = some (inside, stop) →
      ∃ opened, OpensFirst t start opened ∧ IsLeast {stop | EvenAt t opened stop} stop ∧
        t.slice? ⟨opened, stop⟩ = some (braced inside) ∧ inner (braced inside) = inside ∧
        t.slice? ⟨opened + 1, stop - 1⟩ = some inside ∧ Balanced inside := by
  refine ⟨blockAt?_eq_none_iff t start, fun inside stop found => ?_⟩
  obtain ⟨passed, before, after, whole, rfl, absent, balanced, rfl⟩ := exists_of_blockAt? found
  have opening : t = passed ++ before ++ '{' :: (inside ++ '}' :: after) := by simp [whole, braced]
  have inward : t = passed ++ before ++ ['{'] ++ inside ++ '}' :: after := by simp [opening]
  have starts : byteSize (passed ++ before) + 1 = byteSize (passed ++ before ++ ['{']) := by
    rw [byteSize_append (passed ++ before)]
    rfl
  have stops : byteSize (passed ++ before ++ braced inside) - 1 =
      byteSize (passed ++ before ++ ['{'] ++ inside) := by
    have last := byteSize_step_ascii (passed ++ before) ('{' :: inside) (c := '}') (by decide)
    rw [braced, ← last, Nat.add_sub_cancel, List.append_assoc (passed ++ before)]
    rfl
  refine ⟨_, opensFirst_of_split opening absent, isLeast_evenAt whole balanced,
    slice?_eq_some whole, Bytewise.inner_braced inside, ?_, balanced⟩
  rw [starts, stops, slice?_eq_some inward]

end Brace

end CraftScript
