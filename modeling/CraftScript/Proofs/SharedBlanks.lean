import CraftScript.Proofs.Canonical.Words
import CraftScript.Proofs.ItemCount

/-! Bare words `itemcount` that share a blank. The search for them takes the blank on either side of one
along, so of two with a single blank between them the second is left, and where an item line has no
groups it is left to the ids. -/
namespace CraftScript.EntryLine

open Text Pattern

def StandsFree (t : Text) : Prop :=
  ∃ before word after, t = before ++ (word ++ after) ∧ isCount word ∧
    (before = [] ∨ EndsBlank before) ∧ Stops (!isBlank ·) after

/-- The word stands free twice, with a single blank in between. -/
def SharesBlank (t : Text) : Prop :=
  ∃ before word b word' after, t = before ++ (word ++ b :: (word' ++ after)) ∧ isCount word ∧
    isBlank b ∧ isCount word' ∧ (before = [] ∨ EndsBlank before) ∧ Stops (!isBlank ·) after

theorem standsFree_iff {t : Text} : StandsFree t ↔ ∃ word ∈ words t, isCount word := by
  constructor
  · rintro ⟨before, word, after, whole, count, ends, stops⟩
    have member : word ∈ words t := mem_words_iff.mpr
      ⟨isCount_ne_nil count, solid_of_isCount count, before, after, whole, ends, stops⟩
    exact ⟨word, member, count⟩
  · rintro ⟨word, member, count⟩
    obtain ⟨-, -, before, after, whole, ends, stops⟩ := mem_words_iff.mp member
    exact ⟨before, word, after, whole, count, ends, stops⟩

theorem sharesBlank_iff {t : Text} : SharesBlank t ↔ Adjoin (splitBy isBlank t) := by
  constructor
  · rintro ⟨before, word, b, word', after, rfl, count, blank, count', ends, stops⟩
    obtain ⟨back, later⟩ := exists_splitBy_piece (solid_of_isCount count') stops
    have first := splitBy_append (solid_of_isCount count) blank (word' ++ after)
    rw [later] at first
    rcases ends with rfl | ⟨front, c, rfl, blank'⟩
    · exact ⟨[], word, word', back, first, count, count'⟩
    · refine ⟨splitBy isBlank front, word, word', back, ?_, count, count'⟩
      rw [List.append_assoc, List.singleton_append, splitBy_cut blank', first]
  · rintro ⟨front, word, word', back, split, count, count'⟩
    obtain ⟨before, after, rfl, ends, ⟨-, nothing⟩ | ⟨b, rest, blank, rfl, later⟩⟩ :=
      splitBy_eq_append split
    · contradiction
    · obtain ⟨after, rfl, stops⟩ := exists_behind_piece later
      exact ⟨before, word, b, word', after, rfl, count, blank, count', ends, stops⟩

theorem standsFree_left_iff (t : Text) :
    StandsFree (itemCount.takeAll [' '] t).2 ↔ SharesBlank t := by
  have left : words (itemCount.takeAll [' '] t).2 =
      (leftOver true (splitBy isBlank t)).filter (· ≠ []) := (leaves_pieces t).words
  have filled : (∃ word ∈ (leftOver true (splitBy isBlank t)).filter (· ≠ []), isCount word) ↔
      ∃ word ∈ leftOver true (splitBy isBlank t), isCount word := by
    constructor
    · rintro ⟨word, member, count⟩
      exact ⟨word, List.mem_of_mem_filter member, count⟩
    · rintro ⟨word, member, count⟩
      exact ⟨word, List.mem_filter.mpr ⟨member, by simpa using isCount_ne_nil count⟩, count⟩
  rw [standsFree_iff, left, filled, exists_leftOver_iff, sharesBlank_iff]
  simp

def ListsCount (t : Text) : Prop :=
  ∃ word ∈ words t, isCount word ∧ ∃ name ∈ listOf t, word ∈ words name.toList

theorem exists_mem_listOf {t word : Text} (member : word ∈ words t)
    (plain : ∀ c ∈ word, c ≠ ';' ∧ c ≠ ',') : ∃ name ∈ listOf t, word ∈ words name.toList := by
  have solid (x : Char) (cut : (x == ';' || x == ',') = true) : isBlank x = false := by
    rcases Bool.or_eq_true_iff.mp cut with same | same
    · rw [eq_of_beq same]
      decide
    · rw [eq_of_beq same]
      decide
  obtain ⟨piece, among, inside⟩ := exists_mem_splitBy solid member (by simpa using plain)
  rw [← words_trim] at inside
  have filled : trim piece ≠ [] := fun empty => by simp [empty, words, splitBy] at inside
  have listed : trim piece ∈ t.listItems fun c => c == ';' || c == ',' :=
    List.mem_filter.mpr ⟨List.mem_map_of_mem among, by simpa using filled⟩
  exact ⟨String.ofList (trim piece), List.mem_map_of_mem listed, by simpa using inside⟩

theorem plain_of_isCount {word : Text} (count : isCount word) : ∀ c ∈ word, c ≠ ';' ∧ c ≠ ',' := by
  intro c inside
  obtain ⟨lower, member, same⟩ := mem_of_folds (folds_iff_isCount.mpr count) inside
  have apart : ∀ lower ∈ "itemcount".toList,
      foldsTo lower ';' = false ∧ foldsTo lower ',' = false := by decide
  constructor
  · rintro rfl
    simp [apart lower member] at same
  · rintro rfl
    simp [apart lower member] at same

theorem listsCount_iff {t : Text} : ListsCount t ↔ StandsFree t := by
  rw [standsFree_iff]
  constructor
  · rintro ⟨word, member, count, -⟩
    exact ⟨word, member, count⟩
  · rintro ⟨word, member, count⟩
    exact ⟨word, member, count, exists_mem_listOf member (plain_of_isCount count)⟩

def unattributed (t : Text) : Text :=
  let t := (tagList.takeAll [' '] t).2
  let t := (flagList.takeAll [' '] t).2
  let t := (mapperName.takeFirst [' '] t).2
  (modeWord.takeFirst [' '] t).2

def idText (t : Text) : Text :=
  (itemCount.takeAll [' '] (unattributed t)).2

def Ungrouped (t : Text) : Prop :=
  ∀ front back, t = front ++ '[' :: back → ']' ∉ back

theorem takeAll_bracketGroup {t : Text} (ungrouped : Ungrouped t) :
    bracketGroup.takeAll [' '] t = ([], t) := by
  apply takeAll_of_silent
  rintro front c back rfl
  rw [List.append_nil, Option.eq_none_iff_forall_ne_some]
  rintro ⟨inside, rest⟩ read
  obtain ⟨-, group⟩ := bracketGroup_eq_some_iff.mp read
  obtain ⟨rfl, rfl⟩ := List.cons.inj group
  exact ungrouped front _ rfl (by simp)

theorem ids_itemOf (settings : Settings) (index : Nat) {t : Text}
    (ungrouped : Ungrouped (unattributed t)) :
    (itemOf settings index t).ids = (listOf (idText t)).map settings.qualify := by
  have opened : (itemOf settings index t).ids =
      (if (bracketGroup.takeAll [' '] (unattributed t)).1.isEmpty then
        listOf (itemCount.takeAll [' '] (bracketGroup.takeAll [' '] (unattributed t)).2).2
      else (bracketGroup.takeAll [' '] (unattributed t)).1.flatMap listOf).map settings.qualify := rfl
  rw [opened, takeAll_bracketGroup ungrouped]
  rfl

/-- An item line: the keyword in any case, blanks, the digits of the index, which no character of a word
follows, and behind blanks or none the text with attributes and ids. -/
def IsItemLine (index : UInt32) (line t : Text) : Prop :=
  ∃ word gap digits gap', line = word ++ (gap ++ (digits ++ (gap' ++ t))) ∧
    Folds "item".toList word ∧ gap ≠ [] ∧ (∀ c ∈ gap, isBlank c) ∧
    digits.natural? = some index.toNat ∧ Stops isDigit (gap' ++ t) ∧ Stops isWord (gap' ++ t) ∧
    (∀ c ∈ gap', isBlank c) ∧ Stops isBlank t

theorem natural?_digits {digits : Text} {n : Nat} (value : digits.natural? = some n) :
    digits ≠ [] ∧ ∀ c ∈ digits, isAsciiDigit c := by
  simp only [natural?] at value
  split at value
  next every => simpa using every
  next => contradiction

theorem IsItemLine.unique {index index' : UInt32} {line t t' : Text}
    (written : IsItemLine index line t) (written' : IsItemLine index' line t') : t = t' := by
  obtain ⟨word, gap, digits, gap', rfl, folds, -, blanks, value, ends, -, blanks', stops⟩ := written
  obtain ⟨word', lead, number, lead', same, folds', -, leads, value', ends', -, leads', stops'⟩ :=
    written'
  obtain ⟨nonempty, every⟩ := natural?_digits value
  obtain ⟨nonempty', every'⟩ := natural?_digits value'
  have solid {run : Text} (nonempty : run ≠ []) (every : ∀ c ∈ run, isAsciiDigit c) (rest : Text) :
      Stops isBlank (run ++ rest) :=
    stops_append (stops_of_forall fun c inside => Canonical.isBlank_of_isAsciiDigit (every c inside))
      nonempty rest
  have digit {run : Text} (every : ∀ c ∈ run, isAsciiDigit c) : ∀ c ∈ run, isDigit c :=
    fun c inside => Canonical.isDigit_of_isAsciiDigit (every c inside)
  obtain ⟨-, behindWord⟩ := List.append_inj same (folds.length_eq.symm.trans folds'.length_eq)
  have behindGap := congrArg (List.dropWhile isBlank) behindWord
  rw [dropWhile_append_stop blanks (solid nonempty every _),
    dropWhile_append_stop leads (solid nonempty' every' _)] at behindGap
  have behindDigits := congrArg (List.dropWhile isDigit) behindGap
  rw [dropWhile_append_stop (digit every) ends, dropWhile_append_stop (digit every') ends']
    at behindDigits
  have behind := congrArg (List.dropWhile isBlank) behindDigits
  rwa [dropWhile_append_stop blanks' stops, dropWhile_append_stop leads' stops'] at behind

theorem exists_isItemLine {settings : Settings} {line : Text} {item : Item}
    (read : item? settings line = some item) :
    ∃ t, IsItemLine item.index line t ∧ item = itemOf settings item.index.toNat t := by
  simp only [item?, Option.bind_eq_bind, Option.bind_eq_some_iff, guard_eq_some_iff,
    folded?_eq_some_iff, afterBlanks?_eq_some_iff] at read
  obtain ⟨_, ⟨word, folds, rfl⟩, _, ⟨gap, spaced, blanks, -, rfl⟩, ⟨digits, behind⟩, taken, _,
    bounded, t, onLine, index, value, _, small, same⟩ := read
  obtain ⟨-, -, ends, rfl⟩ := run?_eq_some_iff.mp taken
  obtain rfl := Option.some.inj same
  obtain ⟨gap', blanks', whole⟩ := exists_gap behind
  have rest : t = dropBlanks behind := by
    simp only [restOfLine?] at onLine
    split at onLine
    next => contradiction
    next => exact (Option.some.inj onLine).symm
  have number : (UInt32.ofNat index).toNat = index := UInt32.toNat_ofNat_of_lt' small
  have indexed : (itemOf settings index t).index = UInt32.ofNat index := rfl
  rw [indexed, number]
  rw [← rest] at whole
  refine ⟨t, ⟨word, gap, digits, gap', by rw [whole], folds, spaced, blanks, number.symm ▸ value,
    whole ▸ ends, ?_, blanks', rest ▸ stops_dropWhile isBlank behind⟩, rfl⟩
  rw [← whole]
  intro c first
  simpa [first] using bounded

/-- Of the words with single blanks between them the search takes every other one. So one that stands
free is left in a text exactly where two of them share a blank. On an item line without groups one gets
into the ids exactly where two of them share a blank once the attributes are taken out. -/
theorem counts_left_iff_shared (settings : Settings) (t line : Text) :
    words (itemCount.takeAll [' '] t).2 = (leftOver true (splitBy isBlank t)).filter (· ≠ []) ∧
    (StandsFree (itemCount.takeAll [' '] t).2 ↔ SharesBlank t) ∧
    ∀ item, item? settings line = some item →
      ∃ rest, IsItemLine item.index line rest ∧
        (∀ index other, IsItemLine index line other → other = rest) ∧
        (Ungrouped (unattributed rest) →
          item.ids = (listOf (idText rest)).map settings.qualify ∧
          (ListsCount (idText rest) ↔ SharesBlank (unattributed rest))) := by
  refine ⟨(leaves_pieces t).words, standsFree_left_iff t, fun item read => ?_⟩
  obtain ⟨rest, written, whole⟩ := exists_isItemLine read
  refine ⟨rest, written, fun index other written' => written'.unique written, fun ungrouped => ⟨?_, ?_⟩⟩
  · rw [whole]
    exact ids_itemOf settings item.index.toNat ungrouped
  · rw [listsCount_iff]
    exact standsFree_left_iff (unattributed rest)

/-- A mode stands between the ids and three of the words, of which the second is left. -/
theorem counts_left_iff_shared_mode :
    let t := "Nails, mode:keep itemcount ItemCount\titemcount".toList
    let item := itemOf {} 2 t
    item? {} ("item 2 ".toList ++ t) = some item ∧ Ungrouped (unattributed t) ∧
      SharesBlank (unattributed t) ∧ ListsCount (idText t) ∧
      item.ids = ["Base.Nails", "Base.ItemCount"] := by
  intro t item
  have read : item? {} ("item 2 ".toList ++ t) = some item := rfl
  have ungrouped : Ungrouped (unattributed t) := by
    have absent : '[' ∉ unattributed t := by decide +kernel
    intro front back same
    exact absurd (by simp [same]) absent
  have shared : SharesBlank (unattributed t) := by
    refine ⟨"Nails,   ".toList, "itemcount".toList, ' ', "ItemCount".toList, "\titemcount".toList,
      ?_, ?_, ?_, ?_, .inr ⟨"Nails,  ".toList, ' ', rfl, ?_⟩, stops_cons ?_ _⟩
    all_goals decide +kernel
  have written : IsItemLine 2 ("item 2 ".toList ++ t) t := by
    refine ⟨"item".toList, [' '], ['2'], [' '], rfl, by decide, by decide, by decide, rfl, ?_, ?_,
      by decide, ?_⟩
    all_goals exact stops_cons (by decide) _
  obtain ⟨-, -, lines⟩ := counts_left_iff_shared {} t ("item 2 ".toList ++ t)
  obtain ⟨rest, -, only, listed⟩ := lines item read
  obtain rfl := only 2 t written
  obtain ⟨ids, counts⟩ := listed ungrouped
  refine ⟨read, ungrouped, shared, counts.mpr shared, ?_⟩
  rw [ids]
  decide +kernel

/-- The second of two words that share a blank stays in the text and becomes an id. -/
theorem second_count_left :
    let t := "itemcount itemcount".toList
    (itemCount.takeAll [' '] t).2 = " itemcount".toList ∧ StandsFree " itemcount".toList ∧
      (item? {} ("item 1 ".toList ++ t)).map (·.ids) = some ["Base.itemcount"] := by
  intro t
  have free : StandsFree " itemcount".toList :=
    ⟨[' '], "itemcount".toList, [], rfl, by decide, .inr ⟨[], ' ', rfl, by decide⟩, stops_nil _⟩
  exact ⟨by decide +kernel, free, by decide +kernel⟩

end CraftScript.EntryLine
