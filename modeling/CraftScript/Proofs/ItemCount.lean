import CraftScript.Proofs.Attributes
import CraftScript.Proofs.Words

/-! The bare word `itemcount`. It takes the blanks on either side of it along, so what decides is
which pieces between blanks a text has: of two such words that stand with one blank between them, the
search finds the first and leaves the second. -/
namespace CraftScript.EntryLine

open Text Pattern

def isCount (word : Text) : Bool :=
  sameIgnoringCase word "itemcount".toList

theorem folds_iff_isCount {word : Text} : Folds "itemcount".toList word ↔ isCount word := by
  have lower : asciiLower "itemcount".toList = "itemcount".toList := by decide
  rw [isCount, sameIgnoringCase, lower, beq_iff_eq]
  exact ⟨fun folds => asciiLower_of_folds folds (by decide), folds_of_asciiLower⟩

theorem solid_of_isCount {word : Text} (count : isCount word) : ∀ c ∈ word, isBlank c = false := by
  intro c inside
  obtain ⟨lower, member, same⟩ := mem_of_folds (folds_iff_isCount.mpr count) inside
  by_contra blank
  have other := @foldsTo_blank "itemcount".toList (by decide) c (by simpa using blank) lower member
  rw [other] at same
  contradiction

theorem isCount_ne_nil {word : Text} (count : isCount word) : word ≠ [] := by
  rintro rfl
  contradiction

def BareAt (t rest : Text) : Prop :=
  ∃ word, isCount word ∧ (t = word ∧ rest = [] ∨ ∃ c, isBlank c ∧ t = word ++ c :: rest)

def afterCount? (t : Text) : Option Text := do
  let t ← t.folded? "itemcount".toList
  match t with
  | [] => some []
  | c :: t => if isBlank c then some t else none

theorem afterCount?_eq_some_iff {t rest : Text} : afterCount? t = some rest ↔ BareAt t rest := by
  simp only [afterCount?, Option.bind_eq_bind, Option.bind_eq_some_iff, folded?_eq_some_iff,
    folds_iff_isCount]
  constructor
  · rintro ⟨behind, ⟨word, count, rfl⟩, read⟩
    refine ⟨word, count, ?_⟩
    cases behind with
    | nil => exact .inl ⟨List.append_nil word, (Option.some.inj read).symm⟩
    | cons c behind =>
      by_cases blank : isBlank c
      · have same : behind = rest := by simpa [blank] using read
        exact .inr ⟨c, blank, by rw [same]⟩
      · simp [blank] at read
  · rintro ⟨word, count, ⟨rfl, rfl⟩ | ⟨c, blank, rfl⟩⟩
    · exact ⟨[], ⟨t, count, by simp⟩, rfl⟩
    · exact ⟨c :: rest, ⟨word, count, rfl⟩, if_pos blank⟩

theorem not_bareAt_blank {c : Char} (blank : isBlank c) (s rest : Text) :
    ¬ BareAt (c :: s) rest := by
  rintro ⟨word, count, ends⟩
  obtain ⟨d, later, rfl⟩ := List.exists_cons_of_ne_nil (isCount_ne_nil count)
  have same : c = d := by
    rcases ends with ⟨whole, -⟩ | ⟨b, -, whole⟩
    · exact (List.cons.inj whole).1
    · exact (List.cons.inj whole).1
  have solid := solid_of_isCount count d (by simp)
  rw [← same, blank] at solid
  contradiction

theorem itemCount_eq_some_iff {previous : Option Char} {t rest : Text} :
    itemCount previous t = some ((), rest) ↔
      previous = none ∧ BareAt t rest ∨ ∃ c s, isBlank c ∧ t = c :: s ∧ BareAt s rest := by
  have opened : itemCount previous t =
      ((if previous.isNone then afterCount? t else none) <|> match t with
        | [] => none
        | c :: t => if isBlank c then afterCount? t else none).bind fun rest => some ((), rest) := rfl
  simp only [opened, Option.bind_eq_some_iff, Option.some.injEq, Prod.mk.injEq, true_and,
    exists_eq_right, ← afterCount?_eq_some_iff]
  cases t with
  | nil => cases previous <;> simp
  | cons c s =>
    by_cases blank : isBlank c
    · have notHere : afterCount? (c :: s) = none := by
        rw [Option.eq_none_iff_forall_ne_some]
        intro rest found
        exact not_bareAt_blank blank s rest (afterCount?_eq_some_iff.mp found)
      simp [blank, notHere]
    · cases previous <;> simp [blank]

theorem exists_first_piece {s behind rest : Text} (stops : Stops (!isBlank ·) behind)
    (bare : BareAt (s ++ behind) rest) :
    ∃ word others, splitBy isBlank s = word :: others ∧ isCount word := by
  obtain ⟨word, count, ends⟩ := bare
  have solid := solid_of_isCount count
  obtain ⟨tail, whole, stops'⟩ : ∃ tail, s ++ behind = word ++ tail ∧ Stops (!isBlank ·) tail := by
    rcases ends with ⟨whole, -⟩ | ⟨c, blank, whole⟩
    · exact ⟨[], by simpa using whole, stops_nil _⟩
    · exact ⟨c :: rest, whole, stops_cons (by simpa using blank) _⟩
  have first : s.takeWhile (!isBlank ·) = word := by
    rw [← takeWhile_append_of_stops stops, whole,
      takeWhile_append_stop (by simpa using solid) stops']
  obtain ⟨others, split⟩ := exists_splitBy_piece solid (stops_dropWhile (!isBlank ·) s)
  rw [← first, List.takeWhile_append_dropWhile, first] at split
  exact ⟨word, others, split, count⟩

/-- The search passes a text without the word among its pieces. The first piece may be the word where
something stands before it. -/
theorem silent_of_pieces {previous : Option Char} {s behind first : Text} {others : List Text}
    (split : splitBy isBlank s = first :: others) (stops : Stops (!isBlank ·) behind)
    (kept : previous = none → isCount first = false)
    (absent : ∀ piece ∈ others, isCount piece = false) : itemCount.Silent previous s behind := by
  rintro front c back rfl
  rw [Option.eq_none_iff_forall_ne_some]
  rintro ⟨⟨⟩, rest⟩ read
  rcases itemCount_eq_some_iff.mp read with ⟨start, bare⟩ | ⟨b, s, blank, same, bare⟩
  · obtain ⟨last, atStart⟩ := Option.or_eq_none_iff.mp start
    obtain rfl : front = [] := List.getLast?_eq_none_iff.mp last
    obtain ⟨word, _, begins, count⟩ := @exists_first_piece (c :: back) behind rest stops bare
    rw [List.nil_append, begins] at split
    rw [(List.cons.inj split).1, kept atStart] at count
    contradiction
  · obtain ⟨rfl, rfl⟩ := List.cons.inj same
    obtain ⟨word, later, begins, count⟩ := exists_first_piece stops bare
    obtain ⟨piece, pieces, inner⟩ := List.exists_cons_of_ne_nil (splitBy_ne_nil isBlank front)
    rw [splitBy_cut blank, inner, begins, List.cons_append] at split
    rw [absent word (by simp [← (List.cons.inj split).2])] at count
    contradiction

theorem bareAt_append {word behind : Text} (count : isCount word)
    (stops : Stops (!isBlank ·) behind) : BareAt (word ++ behind) (behind.drop 1) := by
  refine ⟨word, count, ?_⟩
  cases behind with
  | nil => exact .inl ⟨List.append_nil word, rfl⟩
  | cons c behind => exact .inr ⟨c, by simpa using stops c rfl, rfl⟩

def IsLead (lead : Text) : Prop :=
  lead = [] ∨ ∃ b, isBlank b ∧ lead = [b]

def isFree (previous : Option Char) (lead : Text) : Bool :=
  previous.isNone || !lead.isEmpty

theorem piecesFrom_count {previous : Option Char} {lead word behind : Text} (isLead : IsLead lead)
    (free : isFree previous lead) (count : isCount word) (stops : Stops (!isBlank ·) behind) :
    ∃ source c, itemCount.piecesFrom 0 previous (lead ++ (word ++ behind)) =
      .found () source :: itemCount.piecesFrom 0 (some c) (behind.drop 1) := by
  have bare := bareAt_append count stops
  have read : itemCount previous (lead ++ (word ++ behind)) = some ((), behind.drop 1) := by
    apply itemCount_eq_some_iff.mpr
    rcases isLead with rfl | ⟨b, blank, rfl⟩
    · exact .inl ⟨by simpa [isFree] using free, bare⟩
    · exact .inr ⟨b, word ++ behind, blank, rfl, bare⟩
  have whole : lead ++ (word ++ behind) = (lead ++ (word ++ behind.take 1)) ++ behind.drop 1 := by
    rw [List.append_assoc, List.append_assoc, List.take_append_drop]
  have filled : lead ++ (word ++ behind.take 1) ≠ [] := by simp [isCount_ne_nil count]
  refine ⟨lead ++ (word ++ behind.take 1), (lead ++ (word ++ behind.take 1)).getLast filled, ?_⟩
  rw [whole] at read ⊢
  rw [piecesFrom_found filled read, lastOf, List.getLast?_eq_some_getLast filled]
  rfl

theorem piecesFrom_piece {previous : Option Char} {lead piece behind : Text} (isLead : IsLead lead)
    (solid : ∀ c ∈ piece, isBlank c = false) (stops : Stops (!isBlank ·) behind)
    (kept : (isFree previous lead && isCount piece) = false) :
    itemCount.piecesFrom 0 previous (lead ++ (piece ++ behind)) =
      (lead ++ piece).map .kept ++
        itemCount.piecesFrom 0 (lastOf previous (lead ++ piece)) behind := by
  have single := splitBy_solid solid
  have silent : itemCount.Silent previous (lead ++ piece) behind := by
    rcases isLead with rfl | ⟨b, blank, rfl⟩
    · exact silent_of_pieces single stops (fun start => by simpa [isFree, start] using kept)
        (by simp)
    · have split : splitBy isBlank ([b] ++ piece) = [[], piece] := by
        simp [splitBy, blank, single]
      exact silent_of_pieces split stops (fun _ => rfl) (by simpa [isFree] using kept)
  rw [← List.append_assoc, piecesFrom_silent silent]

/-- The pieces that a search leaves, where `free` says whether the first one has a blank or the start of
the text before it. A word that is found takes the blank behind it from the next piece. -/
def leftOver (free : Bool) : List Text → List Text
  | [] => []
  | piece :: pieces =>
    if free && isCount piece then leftOver false pieces else piece :: leftOver true pieces

theorem filter_leftOver (free : Bool) (pieces : List Text) :
    (leftOver free pieces).filter (!isCount ·) = pieces.filter (!isCount ·) := by
  fun_induction leftOver free pieces with
  | case1 free => rfl
  | case2 free piece pieces found ih =>
    rw [ih, List.filter_cons_of_neg (by simp [(Bool.and_eq_true_iff.mp found).2])]
  | case3 free piece pieces kept ih => rw [List.filter_cons, List.filter_cons, ih]

def Adjoin (pieces : List Text) : Prop :=
  ∃ front word word' back, pieces = front ++ word :: word' :: back ∧ isCount word ∧ isCount word'

theorem adjoin_cons {piece : Text} {pieces : List Text} :
    Adjoin (piece :: pieces) ↔
      isCount piece ∧ (∃ next ∈ pieces.head?, isCount next) ∨ Adjoin pieces := by
  constructor
  · rintro ⟨front, word, word', back, split, count, count'⟩
    cases front with
    | nil =>
      obtain ⟨rfl, rfl⟩ := List.cons.inj split
      exact .inl ⟨count, word', rfl, count'⟩
    | cons first front =>
      obtain ⟨-, rfl⟩ := List.cons.inj split
      exact .inr ⟨front, word, word', back, rfl, count, count'⟩
  · rintro (⟨count, next, head, count'⟩ | ⟨front, word, word', back, rfl, count, count'⟩)
    · obtain ⟨back, rfl⟩ := List.head?_eq_some_iff.mp head
      exact ⟨[], piece, next, back, rfl, count, count'⟩
    · exact ⟨piece :: front, word, word', back, rfl, count, count'⟩

/-- The word is left where two of them are neighbours, or where it comes first without a blank before
it. -/
theorem exists_leftOver_iff (free : Bool) (pieces : List Text) :
    (∃ piece ∈ leftOver free pieces, isCount piece) ↔
      free = false ∧ (∃ piece ∈ pieces.head?, isCount piece) ∨ Adjoin pieces := by
  induction pieces generalizing free with
  | nil => simp [leftOver, Adjoin]
  | cons piece pieces ih =>
    by_cases count : isCount piece
    · cases free
      · simp [leftOver, count]
      · simp [leftOver, count, ih, adjoin_cons]
    · simp [leftOver, count, ih, adjoin_cons]

/-- A search through these pieces of a text leaves some of them, and finds the word as often as it
leaves one fewer. -/
structure Leaves (found : List (Piece Unit)) (pieces left : List Text) : Prop where
  words : words (found.flatMap (Piece.replaced [' '])) = left.filter (· ≠ [])
  number : (found.filterMap Piece.value?).length + left.countP isCount = pieces.countP isCount

namespace Leaves

variable {found : List (Piece Unit)} {piece : Text} {pieces left : List Text}

theorem nil : Leaves [] [] [] := ⟨rfl, rfl⟩

theorem cons_found (leaves : Leaves found pieces left) (count : isCount piece) (source : Text) :
    Leaves (.found () source :: found) (piece :: pieces) left where
  words := by
    rw [List.flatMap_cons, ← leaves.words]
    exact words_cons (by decide) _
  number := by
    have later := leaves.number
    rw [List.countP_cons_of_pos count, List.filterMap_cons, Piece.value?, List.length_cons]
    omega

theorem append_kept (leaves : Leaves found pieces left) {lead : Text} (isLead : IsLead lead)
    (solid : ∀ c ∈ piece, isBlank c = false)
    (stops : Stops (!isBlank ·) (found.flatMap (Piece.replaced [' ']))) :
    Leaves ((lead ++ piece).map .kept ++ found) (piece :: pieces) (piece :: left) where
  words := by
    have blanks : ∀ c ∈ lead, isBlank c := by
      rcases isLead with rfl | ⟨b, blank, rfl⟩
      · simp
      · simpa using blank
    rw [List.flatMap_append, Piece.flatMap_replaced_kept, List.append_assoc, words_blanks blanks,
      words_piece solid stops, leaves.words, ← List.filter_append, List.singleton_append]
  number := by
    have later := leaves.number
    rw [List.filterMap_append, Piece.filterMap_value?_kept, List.nil_append, List.countP_cons,
      List.countP_cons]
    omega

end Leaves

theorem stops_replaced {b : Char} (blank : isBlank b) (previous : Option Char) (t : Text) :
    Stops (!isBlank ·)
      ((itemCount.piecesFrom 0 previous (b :: t)).flatMap (Piece.replaced [' '])) := by
  unfold piecesFrom
  split
  · exact stops_cons (by simpa using blank) _
  · exact stops_cons (by decide) _

/-- The search goes through the pieces between blanks, with the blank before each if it is not taken. -/
theorem leaves_piecesFrom {t : Text} {pieces : List Text} (split : splitBy isBlank t = pieces)
    {lead : Text} (isLead : IsLead lead) (previous : Option Char) :
    Leaves (itemCount.piecesFrom 0 previous (lead ++ t)) pieces
      (leftOver (isFree previous lead) pieces) := by
  induction pieces generalizing t lead previous with
  | nil => exact absurd split (splitBy_ne_nil isBlank t)
  | cons piece pieces ih =>
    have solid : ∀ c ∈ piece, isBlank c = false :=
      plain_of_mem_splitBy (split ▸ List.mem_cons_self)
    -- Behind the piece the text is over, or a blank and the other pieces follow.
    obtain ⟨behind, rfl, stops, stops', taken, free⟩ : ∃ behind, t = piece ++ behind ∧
        Stops (!isBlank ·) behind ∧
        (∀ previous, Stops (!isBlank ·)
          ((itemCount.piecesFrom 0 previous behind).flatMap (Piece.replaced [' ']))) ∧
        (∀ c, Leaves (itemCount.piecesFrom 0 (some c) (behind.drop 1)) pieces
          (leftOver false pieces)) ∧
        ∀ previous, Leaves (itemCount.piecesFrom 0 previous behind) pieces
          (leftOver true pieces) := by
      obtain ⟨rfl, rfl⟩ | ⟨b, rest, blank, rfl, later⟩ := splitBy_eq_cons split
      · exact ⟨[], by simp, stops_nil _, fun _ => stops_nil _, fun _ => .nil, fun _ => .nil⟩
      · refine ⟨b :: rest, rfl, stops_cons (by simpa using blank) rest,
          fun previous => stops_replaced blank previous rest,
          fun c => ih later (.inl rfl) (some c), fun previous => ?_⟩
        have leaves := ih later (.inr ⟨b, blank, rfl⟩) previous
        simpa [isFree] using leaves
    by_cases found : isFree previous lead && isCount piece
    · obtain ⟨behindLead, count⟩ := Bool.and_eq_true_iff.mp found
      obtain ⟨source, c, read⟩ := piecesFrom_count isLead behindLead count stops
      rw [read, leftOver, if_pos found]
      exact (taken c).cons_found count source
    · rw [piecesFrom_piece isLead solid stops (by simpa using found), leftOver, if_neg found]
      exact (free _).append_kept isLead solid (stops' _)

theorem leaves_pieces (t : Text) :
    Leaves (itemCount.pieces t) (splitBy isBlank t) (leftOver true (splitBy isBlank t)) :=
  leaves_piecesFrom rfl (.inl rfl) none

theorem filter_words (t : Text) (keeps : Text → Bool) :
    (words t).filter keeps = ((splitBy isBlank t).filter keeps).filter (· ≠ []) := by
  rw [words, List.filter_comm]

/-- Where the word stands once at most, the search takes it out and leaves the other words. -/
theorem takeAll_itemCount {t : Text} (few : ((words t).filter isCount).length ≤ 1) :
    ∃ rest, itemCount.takeAll [' '] t = (((words t).filter isCount).map fun _ => (), rest) ∧
      words rest = (words t).filter (!isCount ·) := by
  have counts : (words t).filter isCount = (splitBy isBlank t).filter isCount := by
    rw [filter_words, List.filter_eq_self]
    intro word member
    simpa using isCount_ne_nil (List.mem_filter.mp member).2
  have apart : ¬ Adjoin (splitBy isBlank t) := by
    rintro ⟨front, word, word', back, split, count, count'⟩
    rw [counts, split] at few
    simp only [List.filter_append, List.filter_cons_of_pos count, List.filter_cons_of_pos count',
      List.length_append, List.length_cons] at few
    omega
  have leaves := leaves_pieces t
  have gone : ∀ piece ∈ leftOver true (splitBy isBlank t), isCount piece = false := by
    intro piece member
    by_contra count
    have left := (exists_leftOver_iff true _).mp ⟨piece, member, by simpa using count⟩
    simp [apart] at left
  refine ⟨(itemCount.pieces t).flatMap (Piece.replaced [' ']), ?_, ?_⟩
  · have units (list : List Unit) : list = List.replicate list.length () :=
      List.eq_replicate_of_mem fun _ _ => rfl
    have number := leaves.number
    rw [List.countP_eq_zero.mpr (by simpa using gone), Nat.add_zero, List.countP_eq_length_filter,
      ← counts] at number
    rw [takeAll, units ((itemCount.pieces t).filterMap Piece.value?), number, List.map_const']
  · have others : (leftOver true (splitBy isBlank t)).filter (!isCount ·) =
        leftOver true (splitBy isBlank t) := List.filter_eq_self.mpr (by simpa using gone)
    rw [leaves.words, filter_words, ← filter_leftOver true, others]

end CraftScript.EntryLine
