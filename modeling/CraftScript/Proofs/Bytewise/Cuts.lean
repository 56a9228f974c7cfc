import CraftScript.Text.Basic
import CraftScript.Proofs.Texts
import Mathlib.Data.List.Basic

/-! The bytes of a text and the cuts that can be made between them. A cut has an answer exactly when
its ends are in order, within the text and between two characters; a byte below 128 is a whole
character, so an ASCII mark among the bytes is the mark among the characters. -/
namespace CraftScript.Text

def bytes (t : Text) : List UInt8 :=
  t.flatMap String.utf8EncodeChar

@[simp] theorem bytes_nil : bytes [] = [] := rfl

@[simp] theorem bytes_cons (c : Char) (t : Text) :
    bytes (c :: t) = String.utf8EncodeChar c ++ bytes t := rfl

theorem bytes_append (s t : Text) : bytes (s ++ t) = bytes s ++ bytes t := by
  simp [bytes]

theorem length_bytes (t : Text) : t.bytes.length = t.byteSize := by
  induction t with
  | nil => rfl
  | cons c t ih => simp [byteSize, ih]

theorem drop_bytes (front rest : Text) :
    (bytes (front ++ rest)).drop (byteSize front) = bytes rest := by
  rw [bytes_append, ← length_bytes, List.drop_left]

theorem byteSize_sub {t front rest : Text} (whole : t = front ++ rest) :
    byteSize t - byteSize rest = byteSize front := by
  rw [whole, byteSize_append, Nat.add_sub_cancel]

theorem byteSize_step (before front : Text) (c : Char) :
    byteSize (before ++ front) + c.utf8Size = byteSize (before ++ (front ++ [c])) := by
  rw [← List.append_assoc, byteSize_append (before ++ front)]
  rfl

def IsAscii (c : Char) : Prop :=
  c.utf8Size = 1

instance (c : Char) : Decidable (IsAscii c) :=
  inferInstanceAs (Decidable (_ = _))

theorem byteSize_step_ascii (before front : Text) {c : Char} (ascii : IsAscii c) :
    byteSize (before ++ front) + 1 = byteSize (before ++ (front ++ [c])) := by
  rw [← byteSize_step, ascii]

theorem encode_ascii {c : Char} (ascii : IsAscii c) : String.utf8EncodeChar c = [c.toUInt8] :=
  String.utf8EncodeChar_eq_singleton ascii

theorem toNat_lt_of_ascii {c : Char} (ascii : IsAscii c) : c.toNat < 128 := by
  have small := UInt32.le_iff_toNat_le.mp (Char.utf8Size_eq_one_iff.mp ascii)
  exact Nat.lt_succ_of_le small

theorem toNat_toUInt8_of_ascii {c : Char} (ascii : IsAscii c) : c.toUInt8.toNat = c.toNat := by
  have small := toNat_lt_of_ascii ascii
  change c.val.toUInt8.toNat = c.toNat
  rw [UInt32.toNat_toUInt8]
  exact Nat.mod_eq_of_lt (by change c.toNat < 2 ^ 8; omega)

theorem eq_of_toUInt8_eq {c d : Char} (left : IsAscii c) (right : IsAscii d)
    (same : c.toUInt8 = d.toUInt8) : c = d := by
  have codes : c.toNat = d.toNat := by
    rw [← toNat_toUInt8_of_ascii left, ← toNat_toUInt8_of_ascii right, same]
  rw [← Char.ofNat_toNat c, ← Char.ofNat_toNat d, codes]

private theorem high_or (b k : UInt8) (high : 128 ≤ k.toNat) : 128 ≤ (b ||| k).toNat := by
  rw [UInt8.toNat_or]
  exact Nat.le_trans high Nat.right_le_or

theorem high_of_mem_encode {c : Char} (wide : ¬ IsAscii c) {b : UInt8}
    (inside : b ∈ String.utf8EncodeChar c) : 128 ≤ b.toNat := by
  obtain one | two | three | four := Char.utf8Size_eq c
  · exact absurd one wide
  · rw [String.utf8EncodeChar_eq_cons_cons two] at inside
    simp only [List.mem_cons, List.not_mem_nil, or_false] at inside
    rcases inside with rfl | rfl <;> exact high_or _ _ (by decide)
  · rw [String.utf8EncodeChar_eq_cons_cons_cons three] at inside
    simp only [List.mem_cons, List.not_mem_nil, or_false] at inside
    rcases inside with rfl | rfl | rfl <;> exact high_or _ _ (by decide)
  · rw [String.utf8EncodeChar_eq_cons_cons_cons_cons four] at inside
    simp only [List.mem_cons, List.not_mem_nil, or_false] at inside
    rcases inside with rfl | rfl | rfl | rfl <;> exact high_or _ _ (by decide)

theorem not_mem_encode {mark c : Char} (ascii : IsAscii mark) (other : c ≠ mark) :
    mark.toUInt8 ∉ String.utf8EncodeChar c := by
  intro inside
  by_cases single : IsAscii c
  · rw [encode_ascii single, List.mem_singleton] at inside
    exact other (eq_of_toUInt8_eq ascii single inside).symm
  · have high := high_of_mem_encode single inside
    rw [toNat_toUInt8_of_ascii ascii] at high
    have low := toNat_lt_of_ascii ascii
    omega

theorem head?_bytes_eq_some_iff {mark : Char} (ascii : IsAscii mark) (t : Text) :
    t.bytes.head? = some mark.toUInt8 ↔ t.head? = some mark := by
  cases t with
  | nil => simp
  | cons c t =>
    by_cases same : c = mark
    · subst same
      simp [encode_ascii ascii]
    · obtain ⟨b, rest, split⟩ := List.exists_cons_of_ne_nil (String.utf8EncodeChar_ne_nil (c := c))
      have absent := not_mem_encode ascii same
      rw [split] at absent
      simp only [bytes_cons, split, List.cons_append, List.head?_cons, Option.some.injEq, same,
        iff_false]
      rintro rfl
      exact absent List.mem_cons_self

def IsBoundary (t : Text) (n : Nat) : Prop :=
  ∃ front, front <+: t ∧ byteSize front = n

theorem splitBytes?_isSome_iff (t : Text) (n : Nat) :
    (splitBytes? t n).isSome ↔ IsBoundary t n := by
  constructor
  · intro cut
    obtain ⟨⟨front, rest⟩, cut⟩ := Option.isSome_iff_exists.mp cut
    obtain ⟨rfl, size⟩ := eq_append_of_splitBytes? cut
    exact ⟨front, List.prefix_append front rest, size⟩
  · rintro ⟨front, ⟨rest, rfl⟩, rfl⟩
    rw [splitBytes?_append, Option.isSome_some]

/-- A range of bytes that can be taken out of a text or replaced in it: it is in order, lies within
the text and splits no character at either end. -/
structure Fits (t : Text) (span : Span) : Prop where
  ordered : span.start ≤ span.stop
  within : span.stop ≤ t.byteSize
  starts : IsBoundary t span.start
  stops : IsBoundary t span.stop

theorem eq_nil_of_byteSize {t : Text} (empty : byteSize t = 0) : t = [] := by
  cases t with
  | nil => rfl
  | cons c t =>
    have positive := c.utf8Size_pos
    rw [byteSize] at empty
    omega

theorem byteSize_pos {t : Text} (nonempty : t ≠ []) : 0 < byteSize t :=
  Nat.pos_of_ne_zero fun empty => nonempty (eq_nil_of_byteSize empty)

theorem fits_iff (t : Text) (span : Span) :
    Fits t span ↔ ∃ front inside rest, t = front ++ inside ++ rest ∧
      span = ⟨byteSize front, byteSize (front ++ inside)⟩ := by
  constructor
  · rintro ⟨ordered, -, ⟨front, early, starts⟩, long, late, stops⟩
    obtain ⟨inside, rfl⟩ : front <+: long := by
      rcases List.prefix_or_prefix_of_prefix early late with shorter | ⟨between, rfl⟩
      · exact shorter
      · rw [byteSize_append] at starts
        have nothing : between = [] := eq_nil_of_byteSize (by omega)
        exact ⟨[], by rw [nothing, List.append_nil, List.append_nil]⟩
    obtain ⟨rest, rfl⟩ := late
    exact ⟨front, inside, rest, rfl, by rw [starts, stops]⟩
  · rintro ⟨front, inside, rest, rfl, rfl⟩
    refine ⟨?_, ?_, ⟨front, ⟨inside ++ rest, by simp⟩, rfl⟩,
      front ++ inside, List.prefix_append _ rest, rfl⟩
    · simp only [byteSize_append]
      omega
    · simp only [byteSize_append]
      omega

theorem dropBytes?_append (front rest : Text) :
    dropBytes? (front ++ rest) (byteSize front) = some rest := by
  rw [dropBytes?, splitBytes?_append, Option.map_some]

theorem slice?_eq_some {t front inside rest : Text} (whole : t = front ++ inside ++ rest) :
    slice? t ⟨byteSize front, byteSize (front ++ inside)⟩ = some inside := by
  have ordered : guard (byteSize front ≤ byteSize (front ++ inside)) = some () := by
    rw [guard_eq_some_iff, byteSize_append]
    omega
  have size : byteSize (front ++ inside) - byteSize front = byteSize inside := by
    rw [byteSize_append]
    omega
  simp only [slice?, ordered, whole, List.append_assoc, dropBytes?_append, size,
    splitBytes?_append, Option.bind_eq_bind, Option.pure_def, Option.bind_some]

theorem slice?_isSome_iff (t : Text) (span : Span) : (slice? t span).isSome ↔ Fits t span := by
  rw [fits_iff]
  constructor
  · intro taken
    obtain ⟨_, taken⟩ := Option.isSome_iff_exists.mp taken
    simp only [slice?, dropBytes?, Option.bind_eq_bind, Option.bind_eq_some_iff, guard_eq_some_iff,
      Option.map_eq_some_iff, Prod.exists] at taken
    obtain ⟨-, ordered, _, ⟨front, _, cut, rfl⟩, inside, rest, split, -⟩ := taken
    obtain ⟨rfl, starts⟩ := eq_append_of_splitBytes? cut
    obtain ⟨rfl, size⟩ := eq_append_of_splitBytes? split
    have stops : byteSize (front ++ inside) = span.stop := by
      rw [byteSize_append]
      omega
    exact ⟨front, inside, rest, by simp, by rw [starts, stops]⟩
  · rintro ⟨front, inside, rest, rfl, rfl⟩
    rw [slice?_eq_some rfl, Option.isSome_some]

def replace? (t : Text) (span : Span) (filler : Text) : Option Text := do
  guard (span.start ≤ span.stop)
  let (front, _) ← splitBytes? t span.start
  let rest ← dropBytes? t span.stop
  return front ++ filler ++ rest

theorem replace?_eq_some {t front inside rest : Text} (filler : Text)
    (whole : t = front ++ inside ++ rest) :
    replace? t ⟨byteSize front, byteSize (front ++ inside)⟩ filler =
      some (front ++ filler ++ rest) := by
  have ordered : guard (byteSize front ≤ byteSize (front ++ inside)) = some () := by
    rw [guard_eq_some_iff, byteSize_append]
    omega
  have before : splitBytes? t (byteSize front) = some (front, inside ++ rest) := by
    rw [whole, List.append_assoc, splitBytes?_append]
  have behind : dropBytes? t (byteSize (front ++ inside)) = some rest := by
    rw [whole, dropBytes?_append]
  simp only [replace?, ordered, before, behind, Option.bind_eq_bind, Option.pure_def,
    Option.bind_some]

theorem replace?_isSome_iff (t : Text) (span : Span) (filler : Text) :
    (replace? t span filler).isSome ↔ Fits t span := by
  constructor
  · intro replaced
    obtain ⟨whole, replaced⟩ := Option.isSome_iff_exists.mp replaced
    simp only [replace?, dropBytes?, Option.bind_eq_bind, Option.bind_eq_some_iff,
      guard_eq_some_iff, Option.map_eq_some_iff, Prod.exists] at replaced
    obtain ⟨-, ordered, _, _, starts, _, ⟨_, _, stops, rfl⟩, -⟩ := replaced
    have within := congrArg byteSize (eq_append_of_splitBytes? stops).1
    rw [byteSize_append, (eq_append_of_splitBytes? stops).2] at within
    exact ⟨ordered, by omega, (splitBytes?_isSome_iff ..).mp (by simp [starts]),
      (splitBytes?_isSome_iff ..).mp (by simp [stops])⟩
  · intro fits
    obtain ⟨front, inside, rest, rfl, rfl⟩ := (fits_iff t span).mp fits
    rw [replace?_eq_some filler rfl, Option.isSome_some]

end CraftScript.Text
