import CraftScript.Proofs.Lines
import Mathlib.Data.List.Induction

/-! Pieces of a text and the words in them. A piece or a word is told by what stands around it, and a
word that holds none of the characters where a text is cut is a word of one of the pieces. -/
namespace CraftScript.Text

variable {separates : Char → Bool} {t piece : Text}

theorem splitBy_eq_cons {pieces : List Text} (split : splitBy separates t = piece :: pieces) :
    t = piece ∧ pieces = [] ∨
      ∃ x rest, separates x ∧ t = piece ++ x :: rest ∧ splitBy separates rest = pieces := by
  induction t generalizing piece with
  | nil =>
    obtain ⟨rfl, rfl⟩ := List.cons.inj split
    exact .inl ⟨rfl, rfl⟩
  | cons c t ih =>
    by_cases cuts : separates c
    · rw [splitBy, if_pos cuts] at split
      obtain ⟨rfl, later⟩ := List.cons.inj split
      exact .inr ⟨c, t, cuts, rfl, later⟩
    · have plain : separates c = false := by simpa using cuts
      obtain ⟨first, others, inner⟩ := List.exists_cons_of_ne_nil (splitBy_ne_nil separates t)
      rw [splitBy_cons_plain plain inner] at split
      obtain ⟨rfl, rfl⟩ := List.cons.inj split
      rcases ih inner with ⟨rfl, last⟩ | ⟨x, rest, cut, rfl, later⟩
      · exact .inl ⟨rfl, last⟩
      · exact .inr ⟨x, rest, cut, rfl, later⟩

theorem exists_behind_piece {pieces : List Text} (split : splitBy separates t = piece :: pieces) :
    ∃ behind, t = piece ++ behind ∧ Stops (!separates ·) behind := by
  obtain ⟨rfl, -⟩ | ⟨x, rest, cut, rfl, -⟩ := splitBy_eq_cons split
  · exact ⟨[], by simp, stops_nil _⟩
  · exact ⟨x :: rest, rfl, stops_cons (by simpa using cut) rest⟩

theorem exists_splitBy_piece {behind : Text} (solid : ∀ c ∈ piece, separates c = false)
    (stops : Stops (!separates ·) behind) :
    ∃ pieces, splitBy separates (piece ++ behind) = piece :: pieces := by
  cases behind with
  | nil => exact ⟨[], by rw [List.append_nil, splitBy_solid solid]⟩
  | cons x rest =>
    exact ⟨splitBy separates rest, splitBy_append solid (by simpa using stops x rfl) rest⟩

theorem splitBy_eq_append {front back : List Text}
    (split : splitBy separates t = front ++ piece :: back) :
    ∃ before after, t = before ++ (piece ++ after) ∧
      (before = [] ∨ ∃ inner x, before = inner ++ [x] ∧ separates x) ∧
      (after = [] ∧ back = [] ∨
        ∃ x rest, separates x ∧ after = x :: rest ∧ splitBy separates rest = back) := by
  induction front generalizing t with
  | nil =>
    obtain ⟨rfl, rfl⟩ | ⟨x, rest, cut, rfl, later⟩ := splitBy_eq_cons split
    · exact ⟨[], [], by simp, .inl rfl, .inl ⟨rfl, rfl⟩⟩
    · exact ⟨[], x :: rest, rfl, .inl rfl, .inr ⟨x, rest, cut, rfl, later⟩⟩
  | cons first front ih =>
    obtain ⟨-, nothing⟩ | ⟨x, rest, cut, rfl, later⟩ := splitBy_eq_cons split
    · simp at nothing
    · obtain ⟨before, after, rfl, ends, behind⟩ := ih later
      refine ⟨first ++ x :: before, after, by simp, .inr ?_, behind⟩
      rcases ends with rfl | ⟨inner, y, rfl, cut'⟩
      · exact ⟨first, x, rfl, cut⟩
      · exact ⟨first ++ x :: inner, y, by simp, cut'⟩

theorem words_cons {b : Char} (blank : isBlank b) (t : Text) : words (b :: t) = words t :=
  words_cut blank [] t

theorem words_piece {rest : Text} (solid : ∀ c ∈ piece, isBlank c = false)
    (stops : Stops (!isBlank ·) rest) :
    words (piece ++ rest) = [piece].filter (· ≠ []) ++ words rest := by
  by_cases empty : piece = []
  · simp [empty]
  · simp [words_append empty solid stops, empty]

/-- A word of a text stands between blanks or the ends of the text. -/
theorem mem_words_iff {word : Text} :
    word ∈ words t ↔ word ≠ [] ∧ (∀ c ∈ word, isBlank c = false) ∧
      ∃ before after, t = before ++ (word ++ after) ∧ (before = [] ∨ EndsBlank before) ∧
        Stops (!isBlank ·) after := by
  constructor
  · intro member
    obtain ⟨nonempty, solid⟩ := solid_of_mem_words member
    obtain ⟨front, back, split⟩ := List.append_of_mem (List.mem_of_mem_filter member)
    obtain ⟨before, after, whole, ends, behind⟩ := splitBy_eq_append split
    refine ⟨nonempty, solid, before, after, whole, ends, ?_⟩
    rcases behind with ⟨rfl, -⟩ | ⟨x, rest, blank, rfl, -⟩
    · exact stops_nil _
    · exact stops_cons (by simpa using blank) rest
  · rintro ⟨nonempty, solid, before, after, rfl, ends, stops⟩
    have first : words (word ++ after) = word :: words after := words_append nonempty solid stops
    rcases ends with rfl | ⟨front, b, rfl, blank⟩
    · simp [first]
    · simp [words_cut blank, first]

theorem mem_words_append {word before after : Text} {x : Char} (solid : isBlank x = false)
    (absent : x ∉ word) (member : word ∈ words (before ++ x :: after)) :
    word ∈ words before ∨ word ∈ words after := by
  obtain ⟨nonempty, plain, s, rest, whole, ends, stops⟩ := mem_words_iff.mp member
  rcases List.append_eq_append_iff.mp whole with ⟨between, rfl, behind⟩ | ⟨between, rfl, behind⟩
  · -- The word begins behind the place of the character, and not at it.
    cases between with
    | nil =>
      obtain ⟨d, others, rfl⟩ := List.exists_cons_of_ne_nil nonempty
      obtain ⟨rfl, -⟩ := List.cons.inj behind
      simp at absent
    | cons d between =>
      obtain ⟨rfl, rfl⟩ := List.cons.inj behind
      refine .inr (mem_words_iff.mpr ⟨nonempty, plain, between, rest, rfl, ?_, stops⟩)
      by_cases empty : between = []
      · exact .inl empty
      · have last : EndsBlank (before ++ x :: between) := ends.resolve_left (by simp)
        exact .inr (last.suffix ⟨before ++ [x], by simp⟩ empty)
  · -- The word begins before it, and would hold it or end at it if it did not end earlier.
    rcases List.append_eq_append_iff.mp behind with ⟨tail, rfl, rfl⟩ | ⟨tail, rfl, inside⟩
    · refine .inl (mem_words_iff.mpr ⟨nonempty, plain, s, tail, rfl, ends, fun c first => ?_⟩)
      exact stops c (by rw [List.head?_append, first]; rfl)
    · cases tail with
      | nil =>
        rw [List.nil_append] at inside
        have blank := stops x (by rw [← inside]; rfl)
        simp [solid] at blank
      | cons d tail =>
        obtain ⟨rfl, -⟩ := List.cons.inj inside
        simp at absent

theorem exists_mem_splitBy (solid : ∀ x, separates x → isBlank x = false) {word : Text}
    (member : word ∈ words t) (plain : ∀ c ∈ word, separates c = false) :
    ∃ piece ∈ splitBy separates t, word ∈ words piece := by
  induction split : splitBy separates t generalizing t with
  | nil => exact absurd split (splitBy_ne_nil separates t)
  | cons piece pieces ih =>
    obtain ⟨rfl, -⟩ | ⟨x, rest, cut, rfl, later⟩ := splitBy_eq_cons split
    · exact ⟨t, by simp, member⟩
    · have absent : x ∉ word := fun inside => by simp [plain x inside] at cut
      rcases mem_words_append (solid x cut) absent member with early | late
      · exact ⟨piece, by simp, early⟩
      · obtain ⟨other, among, inside⟩ := ih late later
        exact ⟨other, by simp [among], inside⟩

theorem words_snoc_blanks {gap : Text} (blanks : ∀ c ∈ gap, isBlank c) (t : Text) :
    words (t ++ gap) = words t := by
  induction gap using List.reverseRecOn with
  | nil => rw [List.append_nil]
  | append_singleton gap b ih =>
    rw [← List.append_assoc, words_snoc (blanks b (by simp)),
      ih fun c inside => blanks c (by simp [inside])]

theorem exists_dropEndWhile (drops : Char → Bool) (t : Text) :
    ∃ gap, (∀ c ∈ gap, drops c) ∧ t = dropEndWhile drops t ++ gap := by
  refine ⟨(t.reverse.takeWhile drops).reverse, ?_, ?_⟩
  · intro c inside
    exact List.mem_takeWhile_imp (List.mem_reverse.mp inside)
  · rw [dropEndWhile, ← List.reverse_append, List.takeWhile_append_dropWhile, List.reverse_reverse]

theorem words_trim (t : Text) : words (trim t) = words t := by
  obtain ⟨gap, blanks, whole⟩ := exists_gap t
  obtain ⟨gap', blanks', whole'⟩ := exists_dropEndWhile isBlank (dropBlanks t)
  have late : words (dropBlanks t) = words (trim t) := by
    have dropped := words_snoc_blanks blanks' (trim t)
    rwa [show trim t ++ gap' = dropBlanks t from whole'.symm] at dropped
  have early := words_blanks blanks (dropBlanks t)
  rw [← whole] at early
  rw [early, late]

end CraftScript.Text
