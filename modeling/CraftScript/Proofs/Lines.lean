import CraftScript.Property
import CraftScript.Section
import CraftScript.Proofs.Texts

/-! Lines and line comments. Lines are what newlines separate, without the carriage returns that end
them, and the readers of properties and sections see neither those nor line comments. -/
namespace CraftScript

namespace Text

variable {separates : Char → Bool}

theorem splitBy_cons_plain {c : Char} (plain : separates c = false) {t piece : Text}
    {pieces : List Text} (split : splitBy separates t = piece :: pieces) :
    splitBy separates (c :: t) = (c :: piece) :: pieces := by
  simp [splitBy, plain, split]

theorem splitBy_ne_nil (separates : Char → Bool) (t : Text) : splitBy separates t ≠ [] := by
  cases t with
  | nil => simp [splitBy]
  | cons c t =>
    unfold splitBy
    split
    · simp
    · split <;> simp

theorem splitBy_cut {x : Char} (cut : separates x) (a b : Text) :
    splitBy separates (a ++ x :: b) = splitBy separates a ++ splitBy separates b := by
  induction a with
  | nil => simp [splitBy, cut]
  | cons c a ih =>
    obtain ⟨first, others, split⟩ := List.exists_cons_of_ne_nil (splitBy_ne_nil separates a)
    by_cases cuts : separates c
    · simp [splitBy, cuts, ih]
    · have plain : separates c = false := by simpa using cuts
      rw [split, List.cons_append] at ih
      rw [List.cons_append, splitBy_cons_plain plain ih, splitBy_cons_plain plain split,
        List.cons_append]

theorem splitBy_intercalate {x : Char} (cut : separates x) {texts : List Text} (nonempty : texts ≠ []) :
    splitBy separates ([x].intercalate texts) = texts.flatMap (splitBy separates) := by
  induction texts with
  | nil => contradiction
  | cons t texts ih =>
    cases texts with
    | nil => simp
    | cons next texts =>
      rw [List.intercalate_cons_cons, List.append_assoc, List.singleton_append, splitBy_cut cut,
        ih (by simp)]
      rfl

theorem flatMap_splitBy_solid {texts : List Text}
    (solid : ∀ t ∈ texts, ∀ c ∈ t, separates c = false) :
    texts.flatMap (splitBy separates) = texts := by
  have single : texts.flatMap (splitBy separates) = texts.flatMap ([·]) :=
    List.flatMap_congr fun t member => splitBy_solid (solid t member)
  rw [single, List.flatMap_singleton']

theorem plain_of_mem_splitBy {t piece : Text} (member : piece ∈ splitBy separates t) :
    ∀ c ∈ piece, separates c = false := by
  induction t generalizing piece with
  | nil => simp_all [splitBy]
  | cons c t ih =>
    obtain ⟨first, others, split⟩ := List.exists_cons_of_ne_nil (splitBy_ne_nil separates t)
    by_cases cuts : separates c
    · rw [splitBy, if_pos cuts] at member
      rcases List.mem_cons.mp member with rfl | member
      · simp
      · exact ih member
    · have plain : separates c = false := by simpa using cuts
      rw [splitBy_cons_plain plain split] at member
      rcases List.mem_cons.mp member with rfl | member
      · intro d inside
        rcases List.mem_cons.mp inside with rfl | inside
        · exact plain
        · exact ih (by simp [split]) d inside
      · exact ih (by simp [split, member])

theorem words_cut {x : Char} (blank : isBlank x) (a b : Text) :
    words (a ++ x :: b) = words a ++ words b := by
  rw [words, splitBy_cut blank, List.filter_append]
  rfl

theorem words_snoc {b : Char} (blank : isBlank b) (t : Text) : words (t ++ [b]) = words t := by
  have cut := words_cut blank t []
  rwa [show words [] = [] from rfl, List.append_nil] at cut

theorem words_intercalate {x : Char} (blank : isBlank x) (texts : List Text) :
    words ([x].intercalate texts) = texts.flatMap words := by
  by_cases empty : texts = []
  · subst empty
    rfl
  · rw [words, splitBy_intercalate blank empty, List.filter_flatMap]
    rfl

theorem words_blanks {gap : Text} (blanks : ∀ c ∈ gap, isBlank c) (t : Text) :
    words (gap ++ t) = words t := by
  induction gap with
  | nil => rfl
  | cons c gap ih =>
    have first := words_cut (blanks c (by simp)) [] (gap ++ t)
    rw [ih fun d inside => blanks d (by simp [inside])] at first
    exact first

theorem words_append {word rest : Text} (nonempty : word ≠ []) (solid : ∀ c ∈ word, isBlank c = false)
    (stops : Stops (!isBlank ·) rest) : words (word ++ rest) = word :: words rest := by
  cases rest with
  | nil => simp [words, splitBy_solid solid, nonempty, splitBy]
  | cons c rest =>
    have blank : isBlank c := by simpa using stops c rfl
    simp [words, splitBy_append solid blank, nonempty, splitBy, blank]

theorem words_solid {t : Text} (nonempty : t ≠ []) (solid : ∀ c ∈ t, isBlank c = false) :
    words t = [t] := by
  have single := words_append nonempty solid (stops_nil _)
  rwa [List.append_nil] at single

theorem solid_of_mem_words {t word : Text} (member : word ∈ words t) :
    word ≠ [] ∧ ∀ c ∈ word, isBlank c = false := by
  obtain ⟨inside, nonempty⟩ := List.mem_filter.mp member
  exact ⟨by simpa using nonempty, plain_of_mem_splitBy inside⟩

theorem blank_or_word (t : Text) :
    (∀ c ∈ t, isBlank c) ∨ ∃ gap word rest, (∀ c ∈ gap, isBlank c) ∧ word ≠ [] ∧
      (∀ c ∈ word, isBlank c = false) ∧ Stops (!isBlank ·) rest ∧ t = gap ++ (word ++ rest) := by
  obtain ⟨gap, blanks, whole⟩ := exists_gap t
  by_cases empty : dropBlanks t = []
  · rw [empty, List.append_nil] at whole
    exact .inl (whole ▸ blanks)
  · obtain ⟨c, later, split⟩ := List.exists_cons_of_ne_nil empty
    have solid : isBlank c = false := stops_dropWhile isBlank t c (congrArg List.head? split)
    refine .inr ⟨gap, (dropBlanks t).takeWhile (!isBlank ·), (dropBlanks t).dropWhile (!isBlank ·),
      blanks, ?_, ?_, stops_dropWhile _ _, ?_⟩
    · simp [split, solid]
    · intro d inside
      simpa using List.mem_takeWhile_imp inside
    · rw [List.takeWhile_append_dropWhile]
      exact whole

theorem exists_first_word {t first : Text} {others : List Text}
    (split : words t = first :: others) :
    ∃ gap rest, (∀ c ∈ gap, isBlank c) ∧ Stops (!isBlank ·) rest ∧ t = gap ++ (first ++ rest) ∧
      words rest = others := by
  rcases blank_or_word t with blanks | ⟨gap, word, rest, blanks, nonempty, solid, stops, rfl⟩
  · have empty := words_blanks blanks []
    rw [List.append_nil, split] at empty
    contradiction
  · rw [words_blanks blanks, words_append nonempty solid stops] at split
    obtain ⟨rfl, rfl⟩ := List.cons.inj split
    exact ⟨gap, rest, blanks, stops, rfl, rfl⟩

theorem blank_of_words {t : Text} (wordless : words t = []) : ∀ c ∈ t, isBlank c := by
  rcases blank_or_word t with blanks | ⟨gap, word, rest, blanks, nonempty, solid, stops, rfl⟩
  · exact blanks
  · rw [words_blanks blanks, words_append nonempty solid stops] at wordless
    contradiction

abbrev rawLines (t : Text) : List Text :=
  splitBy (· == '\n') t

def joinLines (pieces : List Text) : Text :=
  ['\n'].intercalate pieces

theorem rawLines_joinLines {pieces : List Text} (nonempty : pieces ≠ [])
    (single : ∀ piece ∈ pieces, '\n' ∉ piece) : rawLines (joinLines pieces) = pieces := by
  rw [rawLines, joinLines, splitBy_intercalate (by decide) nonempty]
  apply flatMap_splitBy_solid
  intro piece member c inside
  simpa using fun same : c = '\n' => single piece member (same ▸ inside)

theorem joinLines_cons {c : Char} {piece : Text} {pieces : List Text} :
    joinLines ((c :: piece) :: pieces) = c :: joinLines (piece :: pieces) := by
  cases pieces <;> simp [joinLines]

theorem joinLines_rawLines (t : Text) : joinLines (rawLines t) = t := by
  induction t with
  | nil => simp [rawLines, splitBy, joinLines]
  | cons c t ih =>
    obtain ⟨first, others, split⟩ := List.exists_cons_of_ne_nil (splitBy_ne_nil (· == '\n') t)
    by_cases newline : c = '\n'
    · subst newline
      rw [rawLines, splitBy, if_pos (by decide), split, joinLines, List.intercalate_cons_cons]
      rw [rawLines, split, joinLines] at ih
      rw [ih]
      rfl
    · rw [rawLines, splitBy_cons_plain (by simpa using newline) split, joinLines_cons, ← split, ih]

def chop (line : Text) : Text :=
  if line.getLast? = some '\r' then line.dropLast else line

theorem chop_cons {c : Char} {line : Text} (nonempty : line ≠ []) :
    chop (c :: line) = c :: chop line := by
  unfold chop
  rw [List.getLast?_cons_of_ne_nil nonempty, List.dropLast_cons_of_ne_nil nonempty]
  split <;> rfl

theorem chop_cases (line : Text) : chop line = line ∨ line = chop line ++ ['\r'] := by
  unfold chop
  split
  · rename_i last
    exact .inr (List.dropLast_append_getLast? '\r' last).symm
  · exact .inl rfl

/-- The lines told from what the newlines separate: a last one that is empty does not count, and no
return is chopped from the last. -/
def chopLines : List Text → List Text
  | [] => []
  | [last] => if last = [] then [] else [last]
  | line :: next :: rest => chop line :: chopLines (next :: rest)

theorem chopLines_cons (line : Text) {rest : List Text} (nonempty : rest ≠ []) :
    chopLines (line :: rest) = chop line :: chopLines rest := by
  cases rest with
  | nil => contradiction
  | cons next rest => rfl

theorem eq_newline_cons {t next : Text} {rest : List Text}
    (split : rawLines t = [] :: next :: rest) : ∃ behind, t = '\n' :: behind := by
  cases t with
  | nil => simp [rawLines, splitBy] at split
  | cons c t =>
    by_cases newline : c = '\n'
    · exact ⟨t, by rw [newline]⟩
    · obtain ⟨first, others, whole⟩ := List.exists_cons_of_ne_nil (splitBy_ne_nil (· == '\n') t)
      rw [rawLines, splitBy_cons_plain (by simpa using newline) whole] at split
      simp at split

theorem lines_eq_chopLines (t : Text) : lines t = chopLines (rawLines t) := by
  fun_induction lines t with
  | case1 => simp [rawLines, splitBy, chopLines]
  | case2 t ih =>
    rw [rawLines, splitBy, if_pos (by decide), chopLines_cons _ (splitBy_ne_nil _ t), ← ih]
    rfl
  | case3 t ih =>
    have split : rawLines ('\r' :: '\n' :: t) = ['\r'] :: rawLines t := by
      simp [rawLines, splitBy]
    rw [split, chopLines_cons _ (splitBy_ne_nil _ t), ← ih]
    rfl
  | case4 c t notNewline notReturn ended ih =>
    obtain ⟨first, others, split⟩ := List.exists_cons_of_ne_nil (splitBy_ne_nil (· == '\n') t)
    rw [rawLines, splitBy_cons_plain (by simpa using notNewline) split]
    rw [ended, rawLines, split] at ih
    cases others with
    | nil =>
      have empty : first = [] := by simpa [chopLines] using ih
      simp [empty, chopLines]
    | cons next others => simp [chopLines] at ih
  | case5 c t notNewline notReturn line rest more ih =>
    obtain ⟨first, others, split⟩ := List.exists_cons_of_ne_nil (splitBy_ne_nil (· == '\n') t)
    rw [rawLines, splitBy_cons_plain (by simpa using notNewline) split]
    rw [more, rawLines, split] at ih
    cases others with
    | nil =>
      by_cases empty : first = []
      · simp [chopLines, empty] at ih
      · simp only [chopLines, empty, if_false, List.cons.injEq] at ih
        simp [chopLines, ih]
    | cons next others =>
      rw [chopLines, List.cons.injEq] at ih
      rw [chopLines, ih.1, ih.2]
      by_cases empty : first = []
      · subst empty
        obtain ⟨behind, rfl⟩ := eq_newline_cons split
        have kept : c ≠ '\r' := fun same => notReturn behind same rfl
        simp [chop, kept]
      · rw [chop_cons empty]

theorem isPrefix_beforeLineComment (t : Text) : beforeLineComment t <+: t := by
  fun_induction beforeLineComment t with
  | case1 => exact List.prefix_rfl
  | case2 t => exact List.nil_prefix
  | case3 c t _ ih => exact List.cons_prefix_cons.mpr ⟨rfl, ih⟩

theorem beforeLineComment_cons {c : Char} {t : Text} (plain : ¬ (c = '/' ∧ ['/'] <+: t)) :
    beforeLineComment (c :: t) = c :: beforeLineComment t := by
  rw [beforeLineComment]
  rintro rest rfl rfl
  exact plain ⟨rfl, by simp⟩

theorem beforeLineComment_self (t : Text) :
    beforeLineComment (beforeLineComment t) = beforeLineComment t := by
  fun_induction beforeLineComment t with
  | case1 => rfl
  | case2 t => rfl
  | case3 c t notComment ih =>
    rw [beforeLineComment_cons, ih]
    rintro ⟨rfl, slash⟩
    obtain ⟨rest, rfl⟩ := slash.trans (isPrefix_beforeLineComment t)
    exact notComment rest rfl rfl

/-- A character that ends a line goes with the comment, or nothing was cut. -/
theorem beforeLineComment_snoc {c : Char} (other : c ≠ '/') (t : Text) :
    beforeLineComment (t ++ [c]) = beforeLineComment t ∨
      beforeLineComment (t ++ [c]) = beforeLineComment t ++ [c] := by
  fun_induction beforeLineComment t with
  | case1 => exact .inr (beforeLineComment_cons (by simp))
  | case2 t => exact .inl rfl
  | case3 d t notComment ih =>
    have plain : ¬ (d = '/' ∧ ['/'] <+: t ++ [c]) := by
      rintro ⟨rfl, rest, same⟩
      cases t with
      | nil => exact other (List.cons.inj same).1.symm
      | cons e t =>
        rw [List.cons_append, List.cons_append, List.cons.injEq] at same
        exact notComment t rfl (by rw [same.1])
    rw [List.cons_append, beforeLineComment_cons plain]
    rcases ih with same | same
    · exact .inl (congrArg (d :: ·) same)
    · exact .inr (congrArg (d :: ·) same)

def uncommented (t : Text) : Text :=
  joinLines ((rawLines t).map beforeLineComment)

theorem rawLines_uncommented (t : Text) :
    rawLines (uncommented t) = (rawLines t).map beforeLineComment := by
  apply rawLines_joinLines
  · simpa using splitBy_ne_nil (· == '\n') t
  · intro piece member
    obtain ⟨line, inside, rfl⟩ := List.mem_map.mp member
    intro newline
    have within := (isPrefix_beforeLineComment line).subset newline
    simpa using plain_of_mem_splitBy inside '\n' within

structure Reader {α : Type} (read : Text → List α) : Prop where
  empty : read [] = []
  comment (line : Text) : read line.beforeLineComment = read line
  returned (line : Text) : read (line ++ ['\r']) = read line

namespace Reader

variable {α : Type} {read : Text → List α}

theorem chop (reader : Reader read) (line : Text) : read (chop line) = read line := by
  rcases chop_cases line with same | same
  · rw [same]
  · rw [same, reader.returned, ← same]

theorem flatMap_chopLines (reader : Reader read) (pieces : List Text) :
    (chopLines pieces).flatMap read = pieces.flatMap read := by
  fun_induction chopLines pieces with
  | case1 => rfl
  | case2 => simp [reader.empty]
  | case3 last nonempty => rfl
  | case4 line next rest ih => rw [List.flatMap_cons, List.flatMap_cons, ih, reader.chop]

theorem flatMap_lines (reader : Reader read) (t : Text) :
    t.lines.flatMap read = (rawLines t).flatMap read := by
  rw [lines_eq_chopLines, reader.flatMap_chopLines]

theorem flatMap_uncommented (reader : Reader read) (t : Text) :
    (uncommented t).lines.flatMap read = t.lines.flatMap read := by
  rw [reader.flatMap_lines, reader.flatMap_lines, rawLines_uncommented, List.flatMap_map]
  exact List.flatMap_congr fun line _ => reader.comment line

end Reader

theorem trimWhile_snoc {drops : Char → Bool} {c : Char} (dropped : drops c) (t : Text) :
    trimWhile drops (t ++ [c]) = trimWhile drops t := by
  rw [trimWhile, trimWhile, List.dropWhile_append]
  split
  · rename_i empty
    rw [List.isEmpty_iff.mp empty]
    simp [dropped]
  · simp [dropEndWhile, dropped]

theorem splitBy_snoc {c : Char} (plain : separates c = false) (t : Text) :
    ∃ front last, splitBy separates t = front ++ [last] ∧
      splitBy separates (t ++ [c]) = front ++ [last ++ [c]] := by
  induction t with
  | nil => exact ⟨[], [], rfl, by simp [splitBy, plain]⟩
  | cons d t ih =>
    obtain ⟨front, last, split, split'⟩ := ih
    by_cases cuts : separates d
    · exact ⟨[] :: front, last, by simp [splitBy, cuts, split], by simp [splitBy, cuts, split']⟩
    · have within : separates d = false := by simpa using cuts
      cases front with
      | nil =>
        exact ⟨[], d :: last, splitBy_cons_plain within split, splitBy_cons_plain within split'⟩
      | cons first front =>
        exact ⟨(d :: first) :: front, last, splitBy_cons_plain within split,
          splitBy_cons_plain within split'⟩

end Text

namespace Property

theorem reader_readLine : Text.Reader readLine where
  empty := by simp [readLine, Text.beforeLineComment, Text.splitBy, Text.trimWhile, Text.dropEndWhile, readPieces]
  comment line := by rw [readLine, readLine, Text.beforeLineComment_self]
  returned line := by
    rcases Text.beforeLineComment_snoc (c := '\r') (by decide) line with same | same
    · rw [readLine, readLine, same]
    · obtain ⟨front, last, split, split'⟩ :=
        @Text.splitBy_snoc (· == ',') '\r' (by decide) line.beforeLineComment
      rw [readLine, readLine, same, split, split', List.map_append, List.map_append, List.map_singleton,
        List.map_singleton, Text.trimWhile_snoc (by decide)]

theorem all_uncommented (t : Text) : all t.uncommented = all t :=
  reader_readLine.flatMap_uncommented t

end Property

namespace Section

def contentOf (line : Text) : List Text :=
  [cleanLine line].filter (· ≠ [])

theorem contentLines_eq_flatMap (t : Text) : contentLines t = t.lines.flatMap contentOf := by
  unfold contentLines
  induction t.lines with
  | nil => rfl
  | cons line lines ih =>
    rw [List.flatMap_cons, ← ih, List.map_cons, contentOf, ← List.filter_append]
    rfl

theorem reader_contentOf : Text.Reader contentOf where
  empty := by decide
  comment line := by rw [contentOf, contentOf, cleanLine, cleanLine, Text.beforeLineComment_self]
  returned line := by
    have same : cleanLine (line ++ ['\r']) = cleanLine line := by
      rcases Text.beforeLineComment_snoc (c := '\r') (by decide) line with same | same
      · rw [cleanLine, cleanLine, same]
      · rw [cleanLine, cleanLine, same, Text.trim, Text.trim, Text.trimWhile_snoc (by decide)]
    rw [contentOf, contentOf, same]

theorem contentLines_uncommented (t : Text) : contentLines t.uncommented = contentLines t := by
  rw [contentLines_eq_flatMap, contentLines_eq_flatMap, reader_contentOf.flatMap_uncommented]

end Section

end CraftScript
