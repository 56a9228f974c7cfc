import CraftScript.Proofs.Canonical.Properties
import CraftScript.Proofs.Heads

/-! How canonical lines lie in the text. What stands before a head ends in a comma or is blank, so no
keyword of another kind of block stands before the name or the brace. -/
namespace CraftScript.Canonical

open Text

theorem unlines_append (front back : List Text) :
    unlines (front ++ back) = unlines front ++ unlines back := by
  simp [unlines]

def blockText (head : Text) (lines : List Text) : Text :=
  head ++ '\n' :: '{' :: (unlines ([] :: lines) ++ ['}'])

theorem unlines_enclosed (head : Text) (lines : List Text) :
    unlines (enclosed head lines) = blockText head lines ++ ['\n'] := by
  simp [unlines, enclosed, blockText]

theorem braceless_of_lined {t : Text} (lined : Lined t) : Braceless t := by
  intro c inside
  have known := lined c inside
  constructor
  · rintro rfl
    exact absurd known (by decide)
  · rintro rfl
    exact absurd known (by decide)

theorem lined_headLine {keyword : Text} (lined : Lined keyword) (name : Word) :
    Lined (headLine keyword name) :=
  lined_append lined (lined_cons (by decide) (lined_word name))

theorem braceless_newline : Braceless ['\n'] := by
  intro c inside
  rw [List.mem_singleton.mp inside]
  decide

theorem braceless_unlines {lines : List Text} (lined : ∀ t ∈ lines, Lined t) :
    Braceless (unlines lines) := by
  intro c inside
  obtain ⟨t, member, here⟩ := List.mem_flatMap.mp inside
  rcases List.mem_append.mp here with within | newline
  · exact braceless_of_lined (lined t member) c within
  · exact braceless_newline c newline

theorem braceless_inside {lines : List Text} (lined : ∀ t ∈ lines, Lined t) :
    Braceless (unlines ([] :: lines)) := by
  apply braceless_unlines
  intro t inside
  rcases List.mem_cons.mp inside with rfl | later
  · simp [Lined]
  · exact lined t later

/-- What may stand before a head: a last line break, and before that nothing or a comma. -/
structure Calm (pending : Text) : Prop where
  free : Braceless pending
  ends : ∃ front, pending = front ++ ['\n']
  settled : ∀ c, (pending.reverse.dropWhile isBlank).head? = some c → c = ','

theorem calm_newline : Calm ['\n'] := by
  refine ⟨braceless_newline, ⟨[], rfl⟩, ?_⟩
  simp [List.dropWhile, isBlank]

theorem calm_pairs (pairs : List Pair) : Calm (unlines ([] :: pairs.map Pair.line)) := by
  have lined : ∀ t ∈ pairs.map Pair.line, Lined t := by
    intro t inside
    obtain ⟨pair, -, rfl⟩ := List.mem_map.mp inside
    exact pair.lined_line
  rcases List.eq_nil_or_concat pairs with rfl | ⟨front, last, rfl⟩
  · exact calm_newline
  · obtain ⟨before, whole⟩ : ∃ before,
        unlines ([] :: (front ++ [last]).map Pair.line) = before ++ [',', '\n'] := by
      refine ⟨unlines ([] :: front.map Pair.line) ++
        (last.key.text ++ (" = ".toList ++ last.value.text)), ?_⟩
      simp only [unlines, Pair.line, List.map_append, List.flatMap_cons, List.flatMap_append,
        List.map_cons, List.map_nil, List.flatMap_nil, List.append_assoc, List.append_nil,
        List.cons_append, List.nil_append]
    rw [List.concat_eq_append] at lined ⊢
    refine ⟨braceless_inside lined, ⟨before ++ [','], ?_⟩, ?_⟩
    · rw [whole, List.append_assoc]
      rfl
    · rw [whole]
      simp [isBlank]

namespace Calm

variable {pending : Text}

theorem beginsWord (calm : Calm pending) (previous : Option Char) :
    beginsWord (lastOf previous pending) := by
  obtain ⟨front, rfl⟩ := calm.ends
  rw [lastOf_append, lastOf_cons, lastOf_nil]
  decide

theorem beforeWord_one (calm : Calm pending) {word : Text} (keyword : IsKeyword word) :
    beforeWord (pending ++ (word ++ ['\n'])) = pending.reverse.dropWhile isBlank := by
  obtain ⟨front, rfl⟩ := calm.ends
  have order : (front ++ ['\n'] ++ (word ++ ['\n'])).reverse =
      ['\n'] ++ (word.reverse ++ (front ++ ['\n']).reverse) := by
    simp
  have gapStops : Stops (!isBlank ·) (front ++ ['\n']).reverse := by
    rw [List.reverse_append]
    exact stops_cons (by decide) _
  rw [beforeWord, order, dropWhile_append_stop (by decide) (keyword.ends _),
    dropWhile_append_stop (by simpa using keyword.solid) gapStops]

theorem absent_one (calm : Calm pending) {word other : Text} (keyword : IsKeyword word)
    (isOther : IsKeyword other) (foreign : other.reverse.head? ≠ some ',') :
    ¬ other.reverse <+: beforeWord (pending ++ (word ++ ['\n'])) := by
  rw [calm.beforeWord_one keyword]
  intro inside
  obtain ⟨c, t, split⟩ := List.exists_cons_of_ne_nil (List.reverse_ne_nil_iff.mpr isOther.1)
  obtain ⟨back, whole⟩ := inside
  rw [split] at whole foreign
  have comma := calm.settled c (by simp [← whole])
  exact foreign (by simp [comma])

end Calm

theorem beforeWord_two (pending : Text) {word : Text} (keyword : IsKeyword word) (name : Word) :
    beforeWord (pending ++ (headLine word name ++ ['\n'])) =
      word.reverse ++ pending.reverse := by
  have ends : Stops isBlank (pending ++ word).reverse := by
    rw [List.reverse_append]
    exact keyword.ends _
  have solid : ∀ c ∈ name.text, isBlank c = false :=
    fun c inside => isBlank_of_isPlain (name.every c inside)
  have split : pending ++ (headLine word name ++ ['\n']) =
      pending ++ word ++ [' '] ++ name.text ++ ['\n'] := by
    simp [headLine]
  rw [split, beforeWord_append ends (by simp) (by decide) name.nonempty solid (by decide),
    List.reverse_append]

theorem braceless_head {word : Text} (keyword : IsKeyword word) (name : Word) :
    Braceless (headLine word name ++ ['\n']) := by
  have spaced : Lined (' ' :: name.text) := lined_cons (by decide) (lined_word name)
  simp only [headLine, braceless_append]
  exact ⟨⟨keyword.braceless, braceless_of_lined spaced⟩, braceless_newline⟩

theorem absent_two (pending : Text) {word other : Text} (keyword : IsKeyword word) (name : Word)
    (short : other.length ≤ word.length) (foreign : ¬ other.reverse <+: word.reverse) :
    ¬ other.reverse <+: beforeWord (pending ++ (headLine word name ++ ['\n'])) := by
  rw [beforeWord_two pending keyword name]
  intro inside
  exact foreign (List.prefix_of_prefix_length_le inside (List.prefix_append _ _) (by simpa using short))

theorem isNameChar_of_isPlain {c : Char} (plain : isPlain c) : Block.isNameChar c := by
  have notOpen : c ≠ '{' := fun same => absurd (same ▸ plain) (by decide)
  have notClose : c ≠ '}' := fun same => absurd (same ▸ plain) (by decide)
  simp [Block.isNameChar, isBlank_of_isPlain plain, notOpen, notClose]

section Named

open Block (opener opener_silent_before)

variable {word : Text} (name : Word) (lines : List Text) (rest : Text)

theorem blockText_append (head : Text) :
    blockText head lines ++ rest =
      (head ++ ['\n']) ++ '{' :: (unlines ([] :: lines) ++ '}' :: rest) := by
  simp [blockText]

theorem opener_block {previous : Option Char} (begins : beginsWord previous) :
    opener word previous (blockText (headLine word name) lines ++ rest) =
      some (name.text, unlines ([] :: lines) ++ '}' :: rest) := by
  rw [Block.opener_eq_some_iff]
  refine ⟨begins, [' '], ['\n'], by simp, by decide, name.nonempty, ?_, by decide, ?_⟩
  · exact fun c inside => isNameChar_of_isPlain (name.every c inside)
  · simp [blockText, headLine]

theorem silent_before_block (keyword : IsKeyword word) {pending : Text} (free : Braceless pending)
    (previous : Option Char) :
    (opener word).Silent previous pending (blockText (headLine word name) lines ++ rest) := by
  rw [blockText_append]
  apply opener_silent_before keyword
  · exact braceless_append.mpr ⟨free, braceless_head keyword name⟩
  · exact beforeWord_two pending keyword name

end Named

section Quiet

open Block (opener opener_silent_step)

variable {word pending head after rest : Text}

theorem silent_block {lines : List Text} (keyword : IsKeyword word)
    (free : Braceless (pending ++ (head ++ ['\n'])))
    (absent : ¬ word.reverse <+: beforeWord (pending ++ (head ++ ['\n'])))
    (lined : ∀ t ∈ lines, Lined t) (later : ∀ previous, (opener word).Silent previous after rest)
    (previous : Option Char) :
    (opener word).Silent previous (pending ++ (blockText head lines ++ after)) rest := by
  rw [blockText_append, ← List.append_assoc]
  apply opener_silent_step keyword free (.inl rfl) (fun _ => absent)
  intro before
  exact opener_silent_step keyword (braceless_inside lined) (.inr rfl) (by simp) later before

end Quiet

end CraftScript.Canonical
