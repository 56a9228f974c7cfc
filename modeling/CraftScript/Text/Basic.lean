/-! Script text as a list of characters, with the cuts every scanner shares. Positions are
counted in UTF-8 bytes, and a cut that would split a character has no answer. -/
namespace CraftScript

abbrev Text := List Char

structure Span where
  start : Nat
  stop : Nat
deriving DecidableEq, Repr

namespace Text

instance decidableForallMem (holds : Char → Prop) [DecidablePred holds] (t : Text) :
    Decidable (∀ c ∈ t, holds c) :=
  List.decidableBAll holds t

def byteSize : Text → Nat
  | [] => 0
  | c :: t => c.utf8Size + byteSize t

/-- The first `n` bytes and what follows them, unless the text is shorter or `n` falls inside a
character. -/
def splitBytes? : Text → Nat → Option (Text × Text)
  | t, 0 => some ([], t)
  | [], _ + 1 => none
  | c :: t, n + 1 =>
    if c.utf8Size ≤ n + 1 then
      (splitBytes? t (n + 1 - c.utf8Size)).map fun (front, rest) => (c :: front, rest)
    else none

@[simp] theorem byteSize_append (front rest : Text) :
    byteSize (front ++ rest) = byteSize front + byteSize rest := by
  induction front with
  | nil => simp [byteSize]
  | cons c front ih => simp [byteSize, ih, Nat.add_assoc]

theorem splitBytes?_append (front rest : Text) :
    splitBytes? (front ++ rest) (byteSize front) = some (front, rest) := by
  induction front with
  | nil => simp [splitBytes?, byteSize]
  | cons c front ih =>
    have positive := c.utf8Size_pos
    obtain ⟨size, same⟩ : ∃ n, c.utf8Size + byteSize front = n + 1 :=
      ⟨c.utf8Size + byteSize front - 1, by omega⟩
    have left : size + 1 - c.utf8Size = byteSize front := by omega
    have within : c.utf8Size ≤ size + 1 := by omega
    simp [splitBytes?, byteSize, same, left, within, ih]

theorem eq_append_of_splitBytes? {t front rest : Text} {n : Nat}
    (cut : splitBytes? t n = some (front, rest)) : t = front ++ rest ∧ byteSize front = n := by
  induction t generalizing n front with
  | nil =>
    cases n with
    | zero => simp_all [splitBytes?, byteSize]
    | succ n => simp [splitBytes?] at cut
  | cons c t ih =>
    cases n with
    | zero => simp_all [splitBytes?, byteSize]
    | succ n =>
      simp only [splitBytes?] at cut
      split at cut
      · obtain ⟨⟨first, last⟩, inner, same⟩ := Option.map_eq_some_iff.mp cut
        simp only [Prod.mk.injEq] at same
        obtain ⟨rfl, rfl⟩ := same
        obtain ⟨rfl, size⟩ := ih inner
        exact ⟨rfl, by simp only [byteSize]; omega⟩
      · simp at cut

def dropBytes? (t : Text) (n : Nat) : Option Text :=
  (splitBytes? t n).map (·.2)

def slice? (t : Text) (span : Span) : Option Text := do
  guard (span.start ≤ span.stop)
  let rest ← dropBytes? t span.start
  let (inside, _) ← splitBytes? rest (span.stop - span.start)
  return inside

/-- What remains from byte `cursor` on once the spans are cut out. Each span in turn moves the
cursor to its end, so spans that overlap backwards copy bytes again. -/
def removeSpansFrom? (t : Text) : Nat → List Span → Option Text
  | cursor, [] => dropBytes? t cursor
  | cursor, span :: spans => do
    let kept ← slice? t ⟨cursor, span.start⟩
    let rest ← removeSpansFrom? t span.stop spans
    return kept ++ rest

def removeSpans? (t : Text) (spans : List Span) : Option Text :=
  removeSpansFrom? t 0 spans

/-- Lines end at a newline, and a carriage return right before it goes with it. A last line
without a newline counts unless it is empty. -/
def lines : Text → List Text
  | [] => []
  | '\n' :: t => [] :: lines t
  | '\r' :: '\n' :: t => [] :: lines t
  | c :: t =>
    match lines t with
    | [] => [[c]]
    | line :: rest => (c :: line) :: rest

def splitBy (separates : Char → Bool) : Text → List Text
  | [] => [[]]
  | c :: t =>
    if separates c then [] :: splitBy separates t
    else match splitBy separates t with
      | [] => [[c]]
      | piece :: pieces => (c :: piece) :: pieces

def splitOnce? (separator : Char) : Text → Option (Text × Text)
  | [] => none
  | c :: t =>
    if c = separator then some ([], t)
    else (splitOnce? separator t).map fun (left, right) => (c :: left, right)

def beforeLineComment : Text → Text
  | [] => []
  | '/' :: '/' :: _ => []
  | c :: t => c :: beforeLineComment t

def dropEndWhile (drops : Char → Bool) (t : Text) : Text :=
  (t.reverse.dropWhile drops).reverse

def trimWhile (drops : Char → Bool) (t : Text) : Text :=
  dropEndWhile drops (t.dropWhile drops)

def occurs (part : Text) : Text → Bool
  | [] => part.isEmpty
  | c :: t => part.isPrefixOf (c :: t) || occurs part t

def asciiLower (t : Text) : Text :=
  t.map Char.toLower

def sameIgnoringCase (a b : Text) : Bool :=
  asciiLower a == asciiLower b

end Text

end CraftScript
