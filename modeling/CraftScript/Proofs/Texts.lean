import CraftScript.Comment
import CraftScript.Text.Digit
import CraftScript.Text.Pattern
import Mathlib.Data.List.Forall2
import Mathlib.Data.List.TakeWhile
import Mathlib.Data.Option.Basic

/-! What the small readers of texts read, said by the parts that make up the text. -/
namespace CraftScript.Text

theorem guard_eq_some_iff {holds : Prop} [Decidable holds] {u : Unit} :
    (guard holds : Option Unit) = some u ↔ holds := by
  by_cases known : holds
  · simp [guard, known]
  · simp [guard, known]

def Stops (kind : Char → Bool) (t : Text) : Prop :=
  ∀ c, t.head? = some c → kind c = false

theorem stops_nil (kind : Char → Bool) : Stops kind [] := by
  simp [Stops]

theorem stops_cons {kind : Char → Bool} {c : Char} (other : kind c = false) (t : Text) :
    Stops kind (c :: t) := by
  simpa [Stops] using other

instance decidableStops (kind : Char → Bool) : (t : Text) → Decidable (Stops kind t)
  | [] => .isTrue (stops_nil kind)
  | c :: t =>
    decidable_of_iff (kind c = false) ⟨fun other => stops_cons other t, fun stops => stops c rfl⟩

theorem stops_append {kind : Char → Bool} {s : Text} (stops : Stops kind s) (nonempty : s ≠ [])
    (t : Text) : Stops kind (s ++ t) := by
  intro c first
  rw [List.head?_append_of_ne_nil s nonempty] at first
  exact stops c first

theorem exists_cons_of_append {kind : Char → Bool} {c : Char} {t rest tail : Text} (ofKind : kind c)
    (stops : Stops kind rest) (same : t ++ rest = c :: tail) :
    ∃ inner, t = c :: inner ∧ tail = inner ++ rest := by
  cases t with
  | nil =>
    have plain := stops c (by rw [List.nil_append] at same; rw [same, List.head?_cons])
    simp [ofKind] at plain
  | cons d t =>
    obtain ⟨rfl, rfl⟩ := List.cons.inj same
    exact ⟨t, rfl, rfl⟩

theorem takeWhile_append_stop {kind : Char → Bool} {run rest : Text}
    (every : ∀ c ∈ run, kind c) (stops : Stops kind rest) :
    (run ++ rest).takeWhile kind = run := by
  rw [List.takeWhile_append_of_pos every]
  cases rest with
  | nil => simp
  | cons c rest =>
    have other := stops c rfl
    simp [other]

theorem dropWhile_append_stop {kind : Char → Bool} {run rest : Text}
    (every : ∀ c ∈ run, kind c) (stops : Stops kind rest) :
    (run ++ rest).dropWhile kind = rest := by
  rw [List.dropWhile_append_of_pos every]
  cases rest with
  | nil => rfl
  | cons c rest =>
    have other := stops c rfl
    simp [other]

theorem takeWhile_append_of_stops {kind : Char → Bool} {x : Text} (stops : Stops kind x)
    (s : Text) : (s ++ x).takeWhile kind = s.takeWhile kind := by
  induction s with
  | nil => simpa using @takeWhile_append_stop kind [] x (by simp) stops
  | cons c s ih =>
    by_cases known : kind c
    · simp [known, ih]
    · simp [known]

theorem dropWhile_append_of_stops {kind : Char → Bool} {x : Text} (stops : Stops kind x)
    (s : Text) : (s ++ x).dropWhile kind = s.dropWhile kind ++ x := by
  induction s with
  | nil => simpa using @dropWhile_append_stop kind [] x (by simp) stops
  | cons c s ih =>
    by_cases known : kind c
    · simp [known, ih]
    · simp [known]

theorem stops_dropWhile (kind : Char → Bool) (t : Text) : Stops kind (t.dropWhile kind) := by
  intro c first
  have head := List.head?_dropWhile_not kind t
  simpa [first] using head

theorem literal?_eq_some_iff {t word rest : Text} :
    literal? t word = some rest ↔ t = word ++ rest := by
  fun_induction literal? t word with
  | case1 t => simp
  | case2 => simp
  | case3 w t word ih => simpa using ih
  | case4 c t w word different => simp [different]

theorem afterBlanks?_eq_some_iff {t rest : Text} :
    afterBlanks? t = some rest ↔
      ∃ gap, gap ≠ [] ∧ (∀ c ∈ gap, isBlank c) ∧ Stops isBlank rest ∧ t = gap ++ rest := by
  constructor
  · intro read
    cases t with
    | nil => simp [afterBlanks?] at read
    | cons c t =>
      simp only [afterBlanks?] at read
      split at read
      next blank =>
        have same := Option.some.inj read
        refine ⟨c :: t.takeWhile isBlank, by simp, ?_, same ▸ stops_dropWhile isBlank t, ?_⟩
        · intro d member
          rcases List.mem_cons.mp member with rfl | inside
          · exact blank
          · exact List.mem_takeWhile_imp inside
        · rw [← same, List.cons_append, dropBlanks, List.takeWhile_append_dropWhile]
      next => contradiction
  · rintro ⟨gap, nonempty, blanks, stops, rfl⟩
    cases gap with
    | nil => contradiction
    | cons c gap =>
      have first : isBlank c := blanks c (by simp)
      have others : ∀ d ∈ gap, isBlank d := fun d inside => blanks d (by simp [inside])
      simp [afterBlanks?, first, dropBlanks, dropWhile_append_stop others stops]

theorem run?_eq_some_iff {kind : Char → Bool} {t run rest : Text} :
    run? kind t = some (run, rest) ↔
      run ≠ [] ∧ (∀ c ∈ run, kind c) ∧ Stops kind rest ∧ t = run ++ rest := by
  unfold run?
  constructor
  · intro read
    split at read
    next => contradiction
    next taken nonempty =>
      simp only [Option.some.injEq, Prod.mk.injEq] at read
      obtain ⟨rfl, rfl⟩ := read
      refine ⟨nonempty, fun c inside => List.mem_takeWhile_imp inside, stops_dropWhile kind t, ?_⟩
      exact List.takeWhile_append_dropWhile.symm
  · rintro ⟨nonempty, every, stops, rfl⟩
    rw [takeWhile_append_stop every stops, dropWhile_append_stop every stops]
    cases run with
    | nil => contradiction
    | cons c run => rfl

theorem dropBlanks_append_stop {gap rest : Text} (blanks : ∀ c ∈ gap, isBlank c)
    (stops : Stops isBlank rest) : dropBlanks (gap ++ rest) = rest :=
  dropWhile_append_stop blanks stops

theorem exists_gap (t : Text) : ∃ gap, (∀ c ∈ gap, isBlank c) ∧ t = gap ++ dropBlanks t :=
  ⟨t.takeWhile isBlank, fun _ inside => List.mem_takeWhile_imp inside,
    List.takeWhile_append_dropWhile.symm⟩

theorem splitOnce?_eq_some_iff {separator : Char} {t left right : Text} :
    splitOnce? separator t = some (left, right) ↔
      separator ∉ left ∧ t = left ++ separator :: right := by
  induction t generalizing left with
  | nil => simp [splitOnce?]
  | cons c t ih =>
    simp only [splitOnce?]
    split
    next same =>
      subst same
      cases left with
      | nil => simp [eq_comm]
      | cons d left =>
        simp only [Option.some.injEq, Prod.mk.injEq, reduceCtorEq, false_and, List.mem_cons,
          not_or, List.cons_append, List.cons.injEq, false_iff, not_and]
        intro different same
        exact absurd same different.1
    next different =>
      cases left with
      | nil => simp [different]
      | cons d left =>
        simp only [Option.map_eq_some_iff, Prod.exists, Prod.mk.injEq, List.cons.injEq,
          List.mem_cons, not_or, List.cons_append]
        constructor
        · rintro ⟨inner, after, read, ⟨rfl, rfl⟩, rfl⟩
          obtain ⟨absent, rfl⟩ := ih.mp read
          exact ⟨⟨fun same => different same.symm, absent⟩, rfl, rfl⟩
        · rintro ⟨⟨-, absent⟩, rfl, rfl⟩
          exact ⟨left, right, ih.mpr ⟨absent, rfl⟩, ⟨rfl, rfl⟩, rfl⟩

abbrev Folds (word t : Text) : Prop :=
  List.Forall₂ (fun lower c => foldsTo lower c) word t

theorem folded?_eq_some_iff {t word rest : Text} :
    folded? t word = some rest ↔ ∃ found, Folds word found ∧ t = found ++ rest := by
  fun_induction folded? t word with
  | case1 t =>
    constructor
    · intro same
      exact ⟨[], .nil, by simpa using same⟩
    · rintro ⟨found, folds, rfl⟩
      cases folds
      rfl
  | case2 =>
    simp only [reduceCtorEq, false_iff, not_exists, not_and]
    intro found folds
    cases folds
    simp
  | case3 c t w word same ih =>
    rw [ih]
    constructor
    · rintro ⟨found, folds, rfl⟩
      exact ⟨c :: found, .cons same folds, rfl⟩
    · rintro ⟨found, folds, split⟩
      cases folds with
      | cons first later =>
        obtain ⟨rfl, rfl⟩ := List.cons.inj split
        exact ⟨_, later, rfl⟩
  | case4 c t w word different =>
    simp only [reduceCtorEq, false_iff, not_exists, not_and]
    intro found folds split
    cases folds with
    | cons first later =>
      obtain ⟨rfl, -⟩ := List.cons.inj split
      exact different first

section Append

variable {kind : Char → Bool} {s x : Text}

theorem run?_append (stops : Stops kind x) (s : Text) :
    run? kind (s ++ x) = (run? kind s).map fun (run, rest) => (run, rest ++ x) := by
  unfold run?
  rw [takeWhile_append_of_stops stops, dropWhile_append_of_stops stops]
  split <;> rfl

theorem afterBlanks?_append (stops : Stops isBlank x) (nonempty : s ≠ []) :
    afterBlanks? (s ++ x) = (afterBlanks? s).map (· ++ x) := by
  obtain ⟨c, t, rfl⟩ := List.exists_cons_of_ne_nil nonempty
  by_cases blank : isBlank c
  · simp [afterBlanks?, blank, dropBlanks, dropWhile_append_of_stops stops]
  · simp [afterBlanks?, blank]

theorem literal?_append {word x : Text} (other : ∀ c ∈ word, x.head? ≠ some c) (s : Text) :
    literal? (s ++ x) word = (literal? s word).map (· ++ x) := by
  induction s generalizing word with
  | nil =>
    cases word with
    | nil => simp [literal?]
    | cons w word =>
      cases x with
      | nil => rfl
      | cons c x =>
        have different : c ≠ w := by simpa using other w (by simp)
        simp [literal?, different]
  | cons c s ih =>
    cases word with
    | nil => simp [literal?]
    | cons w word =>
      have later := @ih word fun d inside => other d (List.mem_cons_of_mem w inside)
      by_cases same : c = w
      · simp [literal?, same, later]
      · simp [literal?, same]

theorem folded?_append {word : Text} {b : Char} (other : ∀ lower ∈ word, foldsTo lower b = false)
    (s x : Text) : folded? (s ++ b :: x) word = (folded? s word).map (· ++ b :: x) := by
  induction s generalizing word with
  | nil =>
    cases word with
    | nil => rfl
    | cons w word => simp [folded?, other w (by simp)]
  | cons c s ih =>
    cases word with
    | nil => rfl
    | cons w word =>
      have later := @ih word fun lower inside => other lower (List.mem_cons_of_mem w inside)
      by_cases same : foldsTo w c
      · simp [folded?, same, later]
      · simp [folded?, same]

theorem splitOnce?_append {separator : Char} {s : Text} (inside : separator ∈ s) (x : Text) :
    splitOnce? separator (s ++ x) =
      (splitOnce? separator s).map fun (left, right) => (left, right ++ x) := by
  induction s with
  | nil => contradiction
  | cons c s ih =>
    by_cases same : c = separator
    · simp [splitOnce?, same]
    · have later := ih (by simpa [Ne.symm same] using inside)
      simp [splitOnce?, same, later, Option.map_map, Function.comp_def]

end Append

theorem mem_of_folds {word t : Text} (folds : Folds word t) {c : Char} (inside : c ∈ t) :
    ∃ lower ∈ word, foldsTo lower c := by
  induction folds with
  | nil => simp at inside
  | cons first later ih =>
    rcases List.mem_cons.mp inside with rfl | inside
    · exact ⟨_, by simp, first⟩
    · obtain ⟨lower, member, same⟩ := ih inside
      exact ⟨lower, by simp [member], same⟩

theorem asciiLower_of_folds {word found : Text} (folds : Folds word found)
    (ordinary : ∀ c ∈ word, c ≠ 's' ∧ c ≠ 'k') : asciiLower found = word := by
  induction folds with
  | nil => rfl
  | cons first later ih =>
    have notSpecial := ordinary _ List.mem_cons_self
    have rest := ih fun c inside => ordinary c (List.mem_cons_of_mem _ inside)
    simp only [foldsTo, notSpecial, Bool.or_eq_true, beq_iff_eq, Bool.and_eq_true, false_and,
      or_false] at first
    rw [asciiLower, List.map_cons, first]
    exact congrArg _ rest

theorem folds_of_asciiLower {word found : Text} (same : asciiLower found = word) :
    Folds word found := by
  induction found generalizing word with
  | nil =>
    rw [← same]
    exact .nil
  | cons c found ih =>
    rw [← same]
    refine .cons ?_ (ih rfl)
    simp [foldsTo]

/-- Text that holds no `mark` up to a character of another kind has none behind a word either. -/
theorem mark_beyond {mark x : Char} {found after s rest : Text} (absent : mark ∉ s)
    (other : x ≠ mark) (foreign : x ∉ found) : s ++ x :: rest ≠ found ++ mark :: after := by
  intro same
  rcases List.append_eq_append_iff.mp same with ⟨between, rfl, tail⟩ | ⟨between, rfl, tail⟩
  · cases between with
    | nil => exact other (List.cons.inj tail).1
    | cons c between =>
      obtain ⟨rfl, -⟩ := List.cons.inj tail
      exact foreign (by simp)
  · cases between with
    | nil => exact other (List.cons.inj tail).1.symm
    | cons c between =>
      obtain ⟨rfl, -⟩ := List.cons.inj tail
      exact absent (by simp)

theorem trimWhile_padded {drops : Char → Bool} {gap t gap' : Text} (nonempty : t ≠ [])
    (early : ∀ c ∈ gap, drops c) (front : Stops drops t) (back : Stops drops t.reverse)
    (late : ∀ c ∈ gap', drops c) : trimWhile drops (gap ++ (t ++ gap')) = t := by
  have kept : (gap ++ (t ++ gap')).dropWhile drops = t ++ gap' :=
    dropWhile_append_stop early (stops_append front nonempty gap')
  have keptBack : (gap'.reverse ++ t.reverse).dropWhile drops = t.reverse :=
    dropWhile_append_stop (by simpa using late) back
  rw [trimWhile, kept, dropEndWhile, List.reverse_append, keptBack, List.reverse_reverse]

theorem trimWhile_eq_self {drops : Char → Bool} {t : Text} (front : Stops drops t)
    (back : Stops drops t.reverse) : trimWhile drops t = t := by
  by_cases empty : t = []
  · simp [empty, trimWhile, dropEndWhile]
  · have padded := @trimWhile_padded drops [] t [] empty (by simp) front back (by simp)
    rwa [List.nil_append, List.append_nil] at padded

theorem isPrefix_dropEndWhile (drops : Char → Bool) (t : Text) : dropEndWhile drops t <+: t := by
  have suffix := List.dropWhile_suffix (l := t.reverse) drops
  rwa [← List.reverse_prefix, List.reverse_reverse] at suffix

theorem stops_of_forall {kind : Char → Bool} {t : Text} (foreign : ∀ c ∈ t, kind c = false) :
    Stops kind t := by
  intro c first
  exact foreign c (List.mem_of_mem_head? first)

theorem trimWhile_solid {drops : Char → Bool} {t : Text} (solid : ∀ c ∈ t, drops c = false) :
    trimWhile drops t = t :=
  trimWhile_eq_self (stops_of_forall solid) (stops_of_forall (by simpa using solid))

theorem splitBy_solid {separates : Char → Bool} {t : Text}
    (solid : ∀ c ∈ t, separates c = false) : splitBy separates t = [t] := by
  induction t with
  | nil => rfl
  | cons c t ih =>
    have later := ih fun d inside => solid d (by simp [inside])
    simp [splitBy, solid c (by simp), later]

theorem splitBy_append {separates : Char → Bool} {s : Text} {x : Char}
    (solid : ∀ c ∈ s, separates c = false) (cut : separates x) (t : Text) :
    splitBy separates (s ++ x :: t) = s :: splitBy separates t := by
  induction s with
  | nil => simp [splitBy, cut]
  | cons c s ih =>
    have later := ih fun d inside => solid d (by simp [inside])
    simp [splitBy, solid c (by simp), later]

theorem mem_intercalate {x c : Char} {texts : List Text} (inside : c ∈ [x].intercalate texts) :
    c = x ∨ ∃ t ∈ texts, c ∈ t := by
  induction texts with
  | nil => simp at inside
  | cons t texts ih =>
    by_cases last : texts = []
    · subst last
      exact .inr ⟨t, by simp, by simpa using inside⟩
    · rw [List.intercalate_cons_of_ne_nil last, List.mem_append, List.mem_append] at inside
      rcases inside with (here | between) | later
      · exact .inr ⟨t, by simp, here⟩
      · exact .inl (List.mem_singleton.mp between)
      · exact (ih later).imp_right fun ⟨other, member, within⟩ => ⟨other, by simp [member], within⟩

theorem lines_append {line : Text} (single : '\n' ∉ line) (plain : '\r' ∉ line) (t : Text) :
    lines (line ++ '\n' :: t) = line :: lines t := by
  induction line with
  | nil => rfl
  | cons c line ih =>
    have later := ih (fun inside => single (by simp [inside])) (fun inside => plain (by simp [inside]))
    have notNewline : c ≠ '\n' := fun same => single (by simp [same])
    have notReturn : c ≠ '\r' := fun same => plain (by simp [same])
    rw [List.cons_append, lines, later]
    · exact notNewline
    · intro t same
      exact absurd same notReturn

theorem beforeLineComment_eq_self {t : Text} (absent : '/' ∉ t) : beforeLineComment t = t := by
  induction t with
  | nil => rfl
  | cons c t ih =>
    have other : c ≠ '/' := fun same => absent (by simp [same])
    have later := ih fun inside => absent (by simp [inside])
    simp [beforeLineComment, other, later]

theorem isAsciiDigit_of_mem_toDigits {n : Nat} {c : Char} (inside : c ∈ Nat.toDigits 10 n) :
    isAsciiDigit c := by
  have digit := Nat.isDigit_of_mem_toDigits (by decide) (by decide) inside
  simp only [Char.isDigit, Bool.and_eq_true, decide_eq_true_eq, UInt32.le_iff_toNat_le,
    ge_iff_le] at digit
  change 48 ≤ c.toNat ∧ c.toNat ≤ 57 at digit
  simp [isAsciiDigit, digit]

theorem digitsValue_toDigits (n : Nat) : digitsValue 0 (Nat.toDigits 10 n) = n := by
  have value : digitsValue 0 (Nat.toDigits 10 n) = Nat.ofDigitChars 10 (Nat.toDigits 10 n) 0 := rfl
  rwa [Nat.ofDigitChars_ten_toDigits] at value

def blankCodes : List Nat :=
  [0x09, 0x0A, 0x0B, 0x0C, 0x0D, 0x20, 0x85, 0xA0, 0x1680, 0x2000, 0x2001, 0x2002, 0x2003, 0x2004,
   0x2005, 0x2006, 0x2007, 0x2008, 0x2009, 0x200A, 0x2028, 0x2029, 0x202F, 0x205F, 0x3000]

theorem mem_blankCodes {c : Char} (blank : isBlank c) : c.toNat ∈ blankCodes := by
  simp only [isBlank, Bool.or_eq_true, Bool.and_eq_true, decide_eq_true_eq, beq_iff_eq] at blank
  simp only [blankCodes, List.mem_cons, List.not_mem_nil, or_false]
  omega

theorem isWord_of_isBlank {c : Char} (blank : isBlank c) : isWord c = false := by
  have apart : ∀ n ∈ blankCodes, isWord (Char.ofNat n) = false := by decide +kernel
  simpa using apart _ (mem_blankCodes blank)

theorem beginsWord_gap {gap : Text} (blanks : ∀ c ∈ gap, isBlank c) {c : Char}
    (mark : isWord c = false) (t : Text) : beginsWord (gap ++ c :: t).head? := by
  cases gap with
  | nil => simp [beginsWord, mark]
  | cons d gap => simp [beginsWord, isWord_of_isBlank (blanks d (by simp))]

theorem isDigit_of_isBlank {c : Char} (blank : isBlank c) : isDigit c = false := by
  have apart : ∀ n ∈ blankCodes, isDigit (Char.ofNat n) = false := by decide +kernel
  simpa using apart _ (mem_blankCodes blank)

theorem foldsTo_blank {word : Text}
    (solid : ∀ n ∈ blankCodes, ∀ lower ∈ word, foldsTo lower (Char.ofNat n) = false) {b : Char}
    (blank : isBlank b) : ∀ lower ∈ word, foldsTo lower b = false := by
  intro lower member
  simpa using solid _ (mem_blankCodes blank) lower member

def EndsBlank (t : Text) : Prop :=
  ∃ front b, t = front ++ [b] ∧ isBlank b

theorem EndsBlank.suffix {t s : Text} (ends : EndsBlank t) (suffix : s <:+ t) (nonempty : s ≠ []) :
    EndsBlank s := by
  obtain ⟨front, b, rfl, blank⟩ := ends
  obtain ⟨before, same⟩ := suffix
  obtain ⟨inner, last, rfl⟩ := (List.eq_nil_or_concat s).resolve_left nonempty
  rw [List.concat_eq_append] at same ⊢
  rw [← List.append_assoc] at same
  obtain ⟨-, last⟩ := List.append_inj' same rfl
  exact ⟨inner, b, by rw [last], blank⟩

end CraftScript.Text
