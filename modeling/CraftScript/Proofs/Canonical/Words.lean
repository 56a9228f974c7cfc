import CraftScript.Proofs.Canonical.Form
import CraftScript.Proofs.FluidAmounts

/-! The words of canonical scripts, read back one by one: plain words, lists and numerals. -/
namespace CraftScript.Canonical

open Text

theorem toNat_of_isPlain {c : Char} (plain : isPlain c) :
    48 ≤ c.toNat ∧ c.toNat ≤ 57 ∨ 65 ≤ c.toNat ∧ c.toNat ≤ 90 ∨ c.toNat = 95 ∨
      97 ≤ c.toNat ∧ c.toNat ≤ 122 := by
  change (decide (c.val ≥ 'A'.val ∧ c.val ≤ 'Z'.val) ||
    decide (c.val ≥ 'a'.val) && decide (c.val ≤ 'z'.val) ||
    decide (c.val ≥ '0'.val) && decide (c.val ≤ '9'.val) || c == '_') = true at plain
  simp only [Bool.or_eq_true, Bool.and_eq_true, decide_eq_true_eq, beq_iff_eq,
    UInt32.le_iff_toNat_le, ge_iff_le] at plain
  change ((65 ≤ c.toNat ∧ c.toNat ≤ 90 ∨ 97 ≤ c.toNat ∧ c.toNat ≤ 122) ∨
    48 ≤ c.toNat ∧ c.toNat ≤ 57) ∨ c = '_' at plain
  rcases plain with letterOrDigit | rfl
  · omega
  · decide

theorem isBlank_of_isPlain {c : Char} (plain : isPlain c) : isBlank c = false := by
  have range := toNat_of_isPlain plain
  simp only [isBlank, Bool.or_eq_false_iff, Bool.and_eq_false_iff, decide_eq_false_iff_not,
    beq_eq_false_iff_ne]
  omega

theorem isWord_of_isPlain {c : Char} (plain : isPlain c) : isWord c := by
  have range := toNat_of_isPlain plain
  have ascii : c.toNat < 0x80 := by omega
  simpa [isWord, ascii, isPlain] using plain

theorem isBlank_of_isAsciiDigit {c : Char} (digit : isAsciiDigit c) : isBlank c = false := by
  simp only [isAsciiDigit, Bool.and_eq_true, decide_eq_true_eq] at digit
  simp only [isBlank, Bool.or_eq_false_iff, Bool.and_eq_false_iff, decide_eq_false_iff_not,
    beq_eq_false_iff_ne]
  omega

theorem isDigit_of_isAsciiDigit {c : Char} (digit : isAsciiDigit c) : isDigit c := by
  simp only [isAsciiDigit, Bool.and_eq_true, decide_eq_true_eq] at digit
  have ascii : c.toNat < 0x80 := by omega
  simp [isDigit, ascii, isAsciiDigit, digit]

namespace Run

variable {kind : Char → Bool}

theorem not_mem (run : Run kind) {mark : Char} (other : kind mark = false) : mark ∉ run.text := by
  intro inside
  rw [run.every mark inside] at other
  contradiction

theorem stops (run : Run kind) {drops : Char → Bool} (solid : ∀ c, kind c → drops c = false)
    (rest : Text) : Stops drops (run.text ++ rest) := by
  obtain ⟨c, t, whole⟩ := List.exists_cons_of_ne_nil run.nonempty
  rw [whole]
  exact stops_cons (solid c (run.every c (by simp [whole]))) _

end Run

section Lists

variable {kind : Char → Bool}

theorem mem_listed {runs : List (Run kind)} {c : Char} (inside : c ∈ listed runs) :
    kind c ∨ c = ';' := by
  rcases mem_intercalate inside with same | ⟨t, member, within⟩
  · exact .inr same
  · obtain ⟨run, -, rfl⟩ := List.mem_map.mp member
    exact .inl (run.every c within)

theorem not_mem_listed (runs : List (Run kind)) {mark : Char} (other : kind mark = false)
    (solid : mark ≠ ';') : mark ∉ listed runs := by
  intro inside
  rcases mem_listed inside with same | same
  · rw [other] at same
    contradiction
  · exact solid same

end Lists

def isLineChar (c : Char) : Bool :=
  isPlain c || " ,;.:=+-[]".toList.contains c

def Lined (t : Text) : Prop :=
  ∀ c ∈ t, isLineChar c

instance (t : Text) : Decidable (Lined t) :=
  inferInstanceAs (Decidable (∀ c ∈ t, _))

theorem lined_append {s t : Text} (left : Lined s) (right : Lined t) : Lined (s ++ t) := by
  intro c inside
  rcases List.mem_append.mp inside with early | late
  · exact left c early
  · exact right c late

theorem lined_cons {c : Char} {t : Text} (first : isLineChar c) (later : Lined t) :
    Lined (c :: t) :=
  @lined_append [c] t (by simpa [Lined] using first) later

theorem Lined.not_mem {t : Text} (lined : Lined t) {mark : Char} (other : isLineChar mark = false) :
    mark ∉ t := by
  intro inside
  rw [lined mark inside] at other
  contradiction

theorem lined_word (word : Word) : Lined word.text := by
  intro c inside
  simp [isLineChar, word.every c inside]

theorem isLineChar_of_isId {c : Char} (plain : isPlain c || c == '.') : isLineChar c := by
  rcases Bool.or_eq_true_iff.mp plain with plain | point
  · simp [isLineChar, plain]
  · rw [beq_iff_eq.mp point]
    decide

theorem lined_listed {kind : Char → Bool} (plain : ∀ c, kind c → isLineChar c)
    (runs : List (Run kind)) : Lined (listed runs) := by
  intro c inside
  rcases mem_listed inside with same | rfl
  · exact plain c same
  · decide

theorem lined_words (words : List Word) : Lined (listed words) :=
  lined_listed (fun c plain => by simp [isLineChar, plain]) words

theorem lined_bracket {t : Text} (lined : Lined t) : Lined (bracket t) :=
  lined_cons (by decide) (lined_append lined (by decide))

theorem isLineChar_of_isAsciiDigit {c : Char} (digit : isAsciiDigit c) : isLineChar c := by
  simp only [isAsciiDigit, Bool.and_eq_true, decide_eq_true_eq] at digit
  have plain : isPlain c := by
    simp only [isPlain, Char.isAlphanum, Char.isDigit, Bool.or_eq_true, Bool.and_eq_true,
      decide_eq_true_eq, UInt32.le_iff_toNat_le, ge_iff_le]
    exact .inl (.inr digit)
  simp [isLineChar, plain]

theorem lined_numeral (numeral : Numeral) : Lined numeral.text := by
  have digits (run : Digits) : Lined run.text :=
    fun c inside => isLineChar_of_isAsciiDigit (run.every c inside)
  obtain ⟨whole, _ | fraction⟩ := numeral
  · exact lined_append (digits whole) (by simp [Lined])
  · exact lined_append (digits whole) (lined_cons (by decide) (digits fraction))

theorem natural?_toDigits (n : Nat) : natural? (Nat.toDigits 10 n) = some n := by
  have digits : (Nat.toDigits 10 n).all isAsciiDigit :=
    List.all_eq_true.mpr fun c inside => isAsciiDigit_of_mem_toDigits inside
  simp [natural?, digits, digitsValue_toDigits]

theorem capitalize_word (word : Word) :
    String.ofList (capitalize word.text) = ItemForm.capitalized word := by
  obtain ⟨c, t, whole⟩ := List.exists_cons_of_ne_nil word.nonempty
  have range := toNat_of_isPlain (word.every c (by simp [whole]))
  have ascii : c.toNat < 0x80 := by omega
  rw [ItemForm.capitalized, whole, ← String.ofList_append]
  simp [capitalize, upper, ascii]

namespace Numeral

theorem amount?_text (numeral : Numeral) (rest : Text) :
    EntryLine.amount? (numeral.text ++ ' ' :: rest) =
      some ((numeral.whole.text, numeral.fractionText), ' ' :: rest) := by
  have digits (run : Digits) : ∀ c ∈ run.text, isDigit c :=
    fun c inside => isDigit_of_isAsciiDigit (run.every c inside)
  have ends (fraction : Text) : EntryLine.EndsNumeral fraction (' ' :: rest) :=
    ⟨stops_cons (by decide) _, fun _ behind point => by simp at point⟩
  rw [EntryLine.amount?_eq_some_iff]
  obtain ⟨whole, _ | fraction⟩ := numeral
  · refine ⟨⟨digits whole, by simp [fractionText], ?_, rfl⟩, ?_, ends _⟩
    · simp [fractionText, whole.nonempty]
    · simp [text, fractionText, EntryLine.numeral]
  · refine ⟨⟨digits whole, digits fraction, ?_, rfl⟩, ?_, ends _⟩
    · simp [fractionText, fraction.nonempty]
    · simp [text, fractionText, EntryLine.numeral, fraction.nonempty]

theorem ofDigits?_text (numeral : Numeral) :
    Amount.ofDigits? numeral.whole.text numeral.fractionText = some numeral.amount := by
  have digits (run : Digits) : run.text.all isAsciiDigit := List.all_eq_true.mpr run.every
  obtain ⟨whole, _ | fraction⟩ := numeral
  · simp [Amount.ofDigits?, fractionText, digits, amount, guard]
  · simp [Amount.ofDigits?, fractionText, digits, amount, guard]

end Numeral

end CraftScript.Canonical
