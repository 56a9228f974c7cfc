import CraftScript.Proofs.Concatenation
import CraftScript.Proofs.RecipeShape

/-! Two ways to write one recipe: on its own, found line by line, and as the component of an entity,
found by three searches for blocks. Where the body is balanced and holds no keyword that either way
would take for its own, both hand over the same body, so that the same recipe is read. -/
namespace CraftScript

open Text

namespace Text

/-- Whether the word stands in the text, its letters in either case and no word character on either
side, where `previous` stands before the text. -/
def hasWordFrom (word : Text) : Option Char → Text → Bool
  | _, [] => false
  | previous, c :: t =>
    beginsWord previous && sameIgnoringCase ((c :: t).take word.length) word &&
        ((c :: t).drop word.length).head?.all (!isWord ·) ||
      hasWordFrom word (some c) t

def hasWord (word t : Text) : Bool :=
  hasWordFrom word none t

theorem beginsWord_blanks {previous : Option Char} (begins : beginsWord previous) {gap : Text}
    (blanks : ∀ c ∈ gap, isBlank c) : beginsWord (lastOf previous gap) := by
  rcases List.eq_nil_or_concat gap with rfl | ⟨front, c, rfl⟩
  · simpa using begins
  · have blank : isBlank c := blanks c (by simp)
    simp [beginsWord, isWord_of_isBlank blank]

theorem hasWordFrom_of_split {word front found rest : Text} {previous : Option Char}
    (nonempty : found ≠ []) (same : sameIgnoringCase found word)
    (begins : beginsWord (lastOf previous front)) (ends : rest.head?.all (!isWord ·)) :
    hasWordFrom word previous (front ++ (found ++ rest)) := by
  induction front generalizing previous with
  | nil =>
    have size : found.length = word.length := by
      simpa [asciiLower] using congrArg List.length (beq_iff_eq.mp same)
    obtain ⟨c, t, rfl⟩ := List.exists_cons_of_ne_nil nonempty
    rw [lastOf_nil] at begins
    rw [List.nil_append, List.cons_append, hasWordFrom, ← List.cons_append, ← size, List.take_left,
      List.drop_left, begins, same, ends]
    rfl
  | cons c front ih =>
    rw [lastOf_cons] at begins
    rw [List.cons_append, hasWordFrom, ih begins, Bool.or_true]

/-- A word that is followed by blanks and lies before a brace is a word of what stands before the
brace. -/
theorem hasWord_before_brace {word found front t gap after rest : Text} {b : Char}
    {previous : Option Char} (same : sameIgnoringCase found word) (nonempty : found ≠ [])
    (free : Braceless found) (brace : b = '{' ∨ b = '}')
    (begins : beginsWord (lastOf previous front)) (spaced : gap ≠ []) (blanks : ∀ c ∈ gap, isBlank c)
    (split : t ++ b :: rest = found ++ (gap ++ after)) : hasWord word (front ++ t) := by
  obtain ⟨g, gap, rfl⟩ := List.exists_cons_of_ne_nil spaced
  have blank : isBlank g := blanks g (by simp)
  have solid : isBlank b = false := by rcases brace with rfl | rfl <;> decide
  have begins : beginsWord (lastOf none front) := by
    cases front with
    | nil => rfl
    | cons c front => simpa using begins
  rcases List.append_eq_append_iff.mp split with ⟨between, rfl, late⟩ | ⟨between, rfl, late⟩
  · -- The brace would stand in the word or be its first blank.
    cases between with
    | nil =>
      obtain ⟨rfl, -⟩ := List.cons.inj late
      rw [blank] at solid
      contradiction
    | cons d between =>
      obtain ⟨rfl, -⟩ := List.cons.inj late
      have notBrace := free b (by simp)
      rcases brace with rfl | rfl
      · exact absurd rfl notBrace.1
      · exact absurd rfl notBrace.2
  · apply hasWordFrom_of_split nonempty same begins
    cases between with
    | nil => rfl
    | cons d between =>
      obtain ⟨rfl, -⟩ := List.cons.inj late
      simp [isWord_of_isBlank blank]

end Text

namespace Block

theorem opener_silent_wordless {word t rest : Text} {b : Char} (keyword : IsKeyword word)
    (brace : b = '{' ∨ b = '}') (absent : hasWord word t = false) (previous : Option Char) :
    (opener word).Silent previous t (b :: rest) := by
  rintro front c back rfl
  rw [Option.eq_none_iff_forall_ne_some]
  rintro ⟨name, inside⟩ read
  obtain ⟨begins, gap, gap', spaced, blanks, -, -, -, same⟩ := opener_eq_some_iff.mp read
  have split : (c :: back) ++ b :: rest = word ++ (gap ++ (name ++ (gap' ++ '{' :: inside))) := by
    simpa using same
  have there := @hasWord_before_brace word word front _ _ _ _ _ _ (beq_self_eq_true _) keyword.1
    keyword.braceless brace begins spaced blanks split
  rw [absent] at there
  contradiction

def head (keyword : Keyword) (name : Text) : Text :=
  keyword.word.toList ++ [' '] ++ name ++ [' ']

def written (keyword : Keyword) (name body : Text) : Text :=
  head keyword name ++ Brace.braced body

theorem IsName.isNameChar {name : Text} (named : IsName name) : ∀ c ∈ name, isNameChar c := by
  intro c inside
  simpa [Block.isNameChar, and_assoc] using named.2 c inside

theorem written_append (keyword : Keyword) (name body rest : Text) :
    written keyword name body ++ rest = head keyword name ++ '{' :: (body ++ '}' :: rest) := by
  simp [written, Brace.braced]

theorem opener_written (keyword : Keyword) {name : Text} (named : IsName name) (body rest : Text)
    {previous : Option Char} (begins : beginsWord previous) :
    opener keyword.word.toList previous (written keyword name body ++ rest) =
      some (name, body ++ '}' :: rest) := by
  rw [opener_eq_some_iff, written_append]
  exact ⟨begins, [' '], [' '], by simp, by decide, named.1, named.isNameChar, by decide, rfl⟩

theorem braceless_head (keyword : Keyword) {name : Text} (named : IsName name) :
    Braceless (head keyword name) := by
  have space : Braceless [' '] := by simp [Braceless]
  simp only [head, braceless_append]
  exact ⟨⟨⟨(isKeyword_word keyword).braceless, space⟩, braceless_name named.isNameChar⟩, space⟩

theorem not_mem_head (keyword : Keyword) {name : Text} (named : IsName name) {c : Char}
    (blank : isBlank c) (other : c ≠ ' ') : c ∉ head keyword name := by
  intro inside
  have solid : isBlank c = false := by
    simp only [head, List.mem_append, List.mem_singleton, other, or_false] at inside
    rcases inside with early | late
    · exact (isKeyword_word keyword).solid c early
    · exact (named.2 c late).1
  rw [solid] at blank
  contradiction

theorem beforeWord_head (pad : Text) (keyword : Keyword) {name : Text} (named : IsName name) :
    beforeWord (pad ++ head keyword name) =
      keyword.word.toList.reverse ++ pad.reverse := by
  have ends : Stops isBlank (pad ++ keyword.word.toList).reverse := by
    rw [List.reverse_append]
    exact (isKeyword_word keyword).ends _
  have split : pad ++ head keyword name =
      (pad ++ keyword.word.toList) ++ [' '] ++ name ++ [' '] := by simp [head]
  rw [split, beforeWord_append ends (by simp) (by decide) named.1 (fun c inside => (named.2 c inside).1)
    (by decide), List.reverse_append]

theorem all_eq {keyword : Keyword} {t : Text} {pieces : List (Piece Block)}
    (scanned : scanFrom keyword.word.toList 0 none t = ⟨pieces, none⟩) :
    all keyword t = pure (pieces.filterMap Piece.value?) := by
  rw [all, Block.pieces, scanned]
  rfl

theorem lastOf_written (previous : Option Char) (keyword : Keyword) (name body : Text) :
    lastOf previous (written keyword name body) = some '}' := by
  simp [written, Brace.braced]

theorem scanFrom_written {keyword : Keyword} {name body pad : Text} (named : IsName name)
    (balanced : Brace.Balanced body) (blanks : ∀ c ∈ pad, isBlank c) {previous : Option Char}
    (begins : beginsWord previous) (rest : Text) :
    scanFrom keyword.word.toList 0 previous (pad ++ (written keyword name body ++ rest)) =
      ⟨pad.map .kept ++ .found ⟨name, body⟩ (written keyword name body) ::
          (scanFrom keyword.word.toList 0 (some '}') rest).pieces,
        (scanFrom keyword.word.toList 0 (some '}') rest).unclosed⟩ := by
  have silent : (opener keyword.word.toList).Silent previous pad
      (written keyword name body ++ rest) := by
    rw [written_append]
    apply opener_silent_before (isKeyword_word keyword)
    · exact braceless_append.mpr ⟨braceless_blanks blanks, braceless_head keyword named⟩
    · exact beforeWord_head pad keyword named
  have found := scanFrom_found (by simp [written, head])
    (opener_written keyword named body rest (beginsWord_blanks begins blanks))
    (Brace.close?_balanced balanced rest)
  rw [scanFrom_silent silent, found, lastOf_written]
  rfl

/-- A search for blocks of its kind finds a written block between blanks, and nothing else. -/
theorem all_written {keyword : Keyword} {name body pad pad' : Text} (named : IsName name)
    (balanced : Brace.Balanced body) (blanks : ∀ c ∈ pad, isBlank c)
    (blanks' : ∀ c ∈ pad', isBlank c) :
    all keyword (pad ++ (written keyword name body ++ pad')) = pure [⟨name, body⟩] := by
  have passed := scanFrom_silent (@opener_silent_end keyword.word.toList pad'
    (braceless_blanks blanks') (some '}'))
  rw [List.append_nil] at passed
  have scanned := @scanFrom_written keyword name body pad named balanced blanks none rfl pad'
  rw [passed, scanFrom, List.append_nil] at scanned
  rw [all_eq scanned]
  simp only [List.filterMap_append, List.filterMap_cons, Piece.filterMap_value?_kept, Piece.value?,
    List.nil_append]

theorem pieces_silent {keyword : Keyword} {t : Text}
    (silent : (opener keyword.word.toList).Silent none t []) :
    pieces keyword t = pure (t.map .kept) := by
  have scanned := scanFrom_silent silent
  rw [List.append_nil] at scanned
  rw [pieces, scanned]
  simp only [scanFrom, List.append_nil]
  rfl

end Block

namespace Text

theorem mem_of_mem_splitBy {separates : Char → Bool} {t piece : Text}
    (member : piece ∈ splitBy separates t) {c : Char} (inside : c ∈ piece) : c ∈ t := by
  induction t generalizing piece with
  | nil => simp_all [splitBy]
  | cons d t ih =>
    obtain ⟨first, others, split⟩ := List.exists_cons_of_ne_nil (splitBy_ne_nil separates t)
    by_cases cuts : separates d
    · rw [splitBy, if_pos cuts] at member
      rcases List.mem_cons.mp member with rfl | later
      · simp at inside
      · exact List.mem_cons_of_mem _ (ih later inside)
    · rw [splitBy_cons_plain (by simpa using cuts) split] at member
      rcases List.mem_cons.mp member with rfl | later
      · rcases List.mem_cons.mp inside with rfl | within
        · exact List.mem_cons_self
        · exact List.mem_cons_of_mem _ (ih (by simp [split]) within)
      · exact List.mem_cons_of_mem _ (ih (by simp [split, later]) inside)

theorem rawLines_append {s : Text} (single : '\n' ∉ s) {t first : Text} {more : List Text}
    (split : rawLines t = first :: more) : rawLines (s ++ t) = (s ++ first) :: more := by
  induction s with
  | nil => exact split
  | cons c s ih =>
    have plain : c ≠ '\n' := fun same => single (by simp [same])
    have later := ih fun inside => single (by simp [inside])
    exact splitBy_cons_plain (by simpa using plain) later

theorem lines_eq_rawLines {t : Text} {c : Char} (unreturned : '\r' ∉ t) (ends : c ≠ '\n') :
    lines (t ++ [c]) = rawLines (t ++ [c]) := by
  obtain ⟨front, last, split, split'⟩ := @splitBy_snoc (· == '\n') c (by simpa using ends) t
  have whole : front.map chop = front := by
    conv_rhs => rw [← List.map_id front]
    apply List.map_congr_left
    intro piece member
    have inside : piece ∈ rawLines t := by rw [rawLines, split]; simp [member]
    rcases chop_cases piece with same | same
    · exact same
    · exact absurd (mem_of_mem_splitBy inside (by rw [same]; simp)) unreturned
  rw [lines_eq_chopLines, rawLines, split', chopLines_append front (by simp), whole]
  simp [chopLines]

theorem unlines_rawLines (t : Text) : (rawLines t).flatMap (· ++ ['\n']) = t ++ ['\n'] := by
  induction t with
  | nil => rfl
  | cons c t ih =>
    obtain ⟨first, others, split⟩ := List.exists_cons_of_ne_nil (splitBy_ne_nil (· == '\n') t)
    by_cases newline : c = '\n'
    · subst newline
      rw [rawLines, splitBy, if_pos (by decide), List.flatMap_cons]
      exact congrArg ('\n' :: ·) ih
    · rw [rawLines, split] at ih
      rw [rawLines, splitBy_cons_plain (by simpa using newline) split]
      exact congrArg (c :: ·) ih

end Text

namespace RecipeSource

structure Gathering.Counted (gathering : Gathering) : Prop where
  depth : gathering.depth = (gathering.text.count '{' : Int) - gathering.text.count '}'
  opened : gathering.opened = gathering.text.contains '{'

namespace Gathering

theorem counted_new (name : Text) : Counted { name } :=
  ⟨rfl, rfl⟩

theorem Counted.push {gathering : Gathering} (counted : Counted gathering) (line : Text) :
    Counted (gathering.push line) := by
  constructor
  · rw [text_push]
    simp only [Gathering.push, counted.depth, List.count_append]
    simp
    omega
  · rw [text_push]
    simp [Gathering.push, counted.opened]

theorem Counted.isComplete_iff {gathering : Gathering} (counted : Counted gathering) :
    gathering.isComplete ↔
      '{' ∈ gathering.text ∧ gathering.text.count '{' ≤ gathering.text.count '}' := by
  simp only [isComplete, counted.opened, counted.depth, Bool.and_eq_true, List.contains_iff_mem,
    decide_eq_true_eq]
  exact and_congr_right fun _ => by omega

end Gathering

/-- No line before the last completes a recipe whose brace closes on its last line. -/
theorem incomplete_front {head body tail front rest : Text} (free : Braceless head)
    (balanced : Brace.Balanced body) (single : '\n' ∉ tail) (nonempty : rest ≠ [])
    (split : front ++ '\n' :: rest = head ++ '{' :: (body ++ '}' :: (tail ++ ['\n']))) :
    ¬ ('{' ∈ front ∧ front.count '{' ≤ front.count '}') := by
  rintro ⟨opens, few⟩
  rcases List.append_eq_append_iff.mp split with ⟨between, rfl, -⟩ | ⟨between, rfl, late⟩
  · exact absurd rfl (free '{' (List.mem_append_left _ opens)).1
  · cases between with
    | nil => simp at late
    | cons b inside =>
      rw [List.cons_append, List.cons.injEq] at late
      obtain ⟨rfl, late⟩ := late
      rcases List.append_eq_append_iff.mp late with ⟨excess, rfl, short⟩ | ⟨excess, rfl, -⟩
      · -- The front would reach over the brace that closes the body.
        cases excess with
        | nil => simp at short
        | cons d excess =>
          obtain ⟨early, last, rfl⟩ := (List.eq_nil_or_concat' rest).resolve_left nonempty
          have short : tail ++ ['\n'] = (excess ++ '\n' :: early) ++ [last] := by
            simpa using (List.cons.inj short).2
          obtain ⟨rfl, -⟩ := List.append_inj' short rfl
          exact single (by simp)
      · have sane := balanced.sane inside (List.prefix_append inside excess)
        have opening := List.count_eq_zero.mpr free.not_mem.1
        have closing := List.count_eq_zero.mpr free.not_mem.2
        simp [List.count_append, opening, closing] at few
        omega

theorem gather_closed {head body : Text} (free : Braceless head) (balanced : Brace.Balanced body)
    {gathering : Gathering} (counted : gathering.Counted) {lines : List Text} (nonempty : lines ≠ [])
    (whole : gathering.text ++ lines.flatMap (· ++ ['\n']) =
      head ++ '{' :: (body ++ ['}', '\n'])) :
    gather (some gathering) lines =
      ([⟨gathering.name, (Comment.strip (head ++ '{' :: (body ++ ['}', '\n']))).text⟩], none) := by
  induction lines generalizing gathering with
  | nil => contradiction
  | cons line lines ih =>
    have pushed := counted.push line
    have whole' : (gathering.push line).text ++ lines.flatMap (· ++ ['\n']) =
        head ++ '{' :: (body ++ ['}', '\n']) := by
      rw [← whole, Gathering.text_push, List.flatMap_cons, List.append_assoc]
    by_cases last : lines = []
    · subst last
      rw [List.flatMap_nil, List.append_nil] at whole'
      have complete : (gathering.push line).isComplete := by
        have total := balanced.settled
        have opening := List.count_eq_zero.mpr free.not_mem.1
        have closing := List.count_eq_zero.mpr free.not_mem.2
        rw [pushed.isComplete_iff, whole']
        simp [List.count_append, opening, closing]
        omega
      simp [gather, complete, Gathering.finish, whole', push_name]
    · have incomplete : (gathering.push line).isComplete = false := by
        rw [← Bool.not_eq_true, pushed.isComplete_iff]
        have rest : lines.flatMap (· ++ ['\n']) ≠ [] := by
          obtain ⟨next, more, rfl⟩ := List.exists_cons_of_ne_nil last
          simp
        have front := @incomplete_front head body [] (gathering.text ++ line) _ free balanced (by simp)
          rest (by rw [List.nil_append, ← whole', Gathering.text_push]; simp)
        simpa [Gathering.text_push] using front
      have next : gather (some gathering) (line :: lines) =
          gather (some (gathering.push line)) lines := by
        simp [gather, incomplete]
      rw [next, ih pushed last whole', push_name]

theorem gather_headless {lines : List Text} (headless : ∀ line ∈ lines, header? line = none) :
    gather none lines = ([], none) := by
  induction lines with
  | nil => rfl
  | cons line lines ih =>
    have first := headless line (by simp)
    have later := ih fun other inside => headless other (by simp [inside])
    simp [gather, first, later]

end RecipeSource

namespace Block

theorem signless_written (keyword : Keyword) {name body : Text}
    (plain : occurs ['/', '*'] name = false) (plain' : occurs ['/', '*'] body = false) :
    occurs ['/', '*'] (written keyword name body) = false := by
  have word : occurs ['/', '*'] keyword.word.toList = false := by cases keyword <;> decide
  have inner : occurs ['/', '*'] (Brace.braced body) = false := by
    have closing := @occurs_mark ['/', '*'] (by simp) '}' (by simp) body []
    have opening := @occurs_mark ['/', '*'] (by simp) '{' (by simp) [] (body ++ ['}'])
    rw [List.nil_append, closing, plain'] at opening
    exact opening
  have split : written keyword name body =
      keyword.word.toList ++ ' ' :: (name ++ ' ' :: Brace.braced body) := by simp [written, head]
  rw [split, occurs_mark (by simp) (by simp), occurs_mark (by simp) (by simp), word, plain, inner]
  rfl

theorem balanced_written (keyword : Keyword) {name body : Text} (named : IsName name)
    (balanced : Brace.Balanced body) : Brace.Balanced (written keyword name body) := by
  have split := written_append keyword name body []
  rw [List.append_nil] at split
  rw [split]
  apply Brace.settles_append (Brace.balanced_of_braceless (braceless_head keyword named))
  exact Brace.balanced_enclosed balanced ((Brace.settles_nil 0).mpr rfl)

end Block

namespace RecipeSource

theorem body?_written {name body : Text} (named : Block.IsName name)
    (balanced : Brace.Balanced body) :
    body? ⟨name, Block.written .craftRecipe name body⟩ = some body := by
  have split := Block.written_append .craftRecipe name body []
  rw [List.append_nil] at split
  have dropped : (Block.written .craftRecipe name body).dropWhile (· ≠ '{') =
      '{' :: (body ++ '}' :: []) := by
    rw [split]
    apply dropWhile_append_stop
    · exact fun c inside => by simpa using (Block.braceless_head _ named c inside).1
    · exact stops_cons (by decide) _
  rw [body?, Brace.firstBlock?, dropped]
  simp only [Brace.close?_balanced balanced]
  rfl

theorem header?_head {name : Text} (named : Block.IsName name) (rest : Text) :
    header? (Block.head .craftRecipe name ++ rest) = some name := by
  rw [header?_eq_some_iff]
  refine ⟨[], Keyword.craftRecipe.word.toList, [' '], ' ' :: rest, by simp, ?_, by simp, by decide,
    named.1, named.isNameChar, stops_cons (by decide) _, by simp [Block.head]⟩
  exact List.forall₂_iff_get.mpr (by decide)

theorem all_written {name body : Text} (named : Block.IsName name)
    (balanced : Brace.Balanced body) (unreturned : '\r' ∉ body)
    (plain : occurs ['/', '*'] name = false) (plain' : occurs ['/', '*'] body = false) :
    ∃ block, all (Block.written .craftRecipe name body) = pure [block] ∧ block.name = name ∧
      block.body? = some body := by
  have whole : Block.written .craftRecipe name body =
      Block.head .craftRecipe name ++ '{' :: (body ++ ['}']) := by
    simpa using Block.written_append .craftRecipe name body []
  have ended : Block.written .craftRecipe name body ++ ['\n'] =
      Block.head .craftRecipe name ++ '{' :: (body ++ ['}', '\n']) := by
    simp [whole]
  have single : '\n' ∉ Block.head .craftRecipe name :=
    Block.not_mem_head _ named (by decide) (by decide)
  have headed : '\r' ∉ Block.head .craftRecipe name :=
    Block.not_mem_head _ named (by decide) (by decide)
  have lined : lines (Block.written .craftRecipe name body) =
      rawLines (Block.written .craftRecipe name body) := by
    have split : Block.written .craftRecipe name body =
        (Block.head .craftRecipe name ++ '{' :: body) ++ ['}'] := by
      simp [whole]
    rw [split]
    apply lines_eq_rawLines _ (by decide)
    simp [headed, unreturned]
  obtain ⟨first, more, cut⟩ :=
    List.exists_cons_of_ne_nil (splitBy_ne_nil (· == '\n') ('{' :: (body ++ ['}'])))
  have raw := rawLines_append single cut
  rw [← whole] at raw
  have gathered := gather_closed (Block.braceless_head _ named) balanced
    (Gathering.counted_new name) (splitBy_ne_nil (· == '\n') _) ((unlines_rawLines _).trans ended)
  have started : gather none (rawLines (Block.written .craftRecipe name body)) =
      gather (some { name }) (rawLines (Block.written .craftRecipe name body)) := by
    rw [raw]
    simp [gather, header?_head named]
  refine ⟨⟨name, (Comment.strip (Block.written .craftRecipe name body ++ ['\n'])).text⟩, ?_, rfl, ?_⟩
  · rw [all, lined, started, gathered, ended]
    rfl
  · have text := @body?_strip_append ['\n'] (by simp [Braceless]) (stops_cons (by decide) []) name
      (Block.written .craftRecipe name body)
    rw [Comment.strip_signless (Block.signless_written .craftRecipe plain plain'),
      body?_written named balanced] at text
    exact text

end RecipeSource

namespace Construction

def componentText (body : Text) : Text :=
  [' '] ++ (Block.written .component "CraftRecipe".toList body ++ [' '])

def entityText (name body : Text) : Text :=
  [' '] ++ (Block.written .entity name (componentText body) ++ [' '])

def written (module name body : Text) : Text :=
  Block.written .module module (entityText name body)

theorem isName_craftRecipe : Block.IsName "CraftRecipe".toList := by
  constructor <;> decide

theorem balanced_padded {t : Text} (balanced : Brace.Balanced t) :
    Brace.Balanced ([' '] ++ (t ++ [' '])) := by
  have space : Brace.Balanced [' '] := Brace.balanced_of_braceless (by simp [Braceless])
  exact Brace.settles_append space (Brace.settles_append balanced space)

variable {name body : Text}

theorem balanced_componentText (balanced : Brace.Balanced body) :
    Brace.Balanced (componentText body) :=
  balanced_padded (Block.balanced_written _ isName_craftRecipe balanced)

theorem balanced_entityText (named : Block.IsName name) (balanced : Brace.Balanced body) :
    Brace.Balanced (entityText name body) :=
  balanced_padded (Block.balanced_written _ named (balanced_componentText balanced))

theorem signless_padded {t : Text} (plain : occurs ['/', '*'] t = false) :
    occurs ['/', '*'] ([' '] ++ (t ++ [' '])) = false := by
  have front := @occurs_mark ['/', '*'] (by simp) ' ' (by simp) [] (t ++ [' '])
  have back := @occurs_mark ['/', '*'] (by simp) ' ' (by simp) t []
  rw [back, plain] at front
  exact front

theorem signless_written {module : Text} (plain : occurs ['/', '*'] module = false)
    (plain' : occurs ['/', '*'] name = false) (plain'' : occurs ['/', '*'] body = false) :
    occurs ['/', '*'] (written module name body) = false := by
  apply Block.signless_written .module plain
  apply signless_padded
  apply Block.signless_written .entity plain'
  apply signless_padded
  exact Block.signless_written .component (by decide) plain''

theorem silent_xuiSkin (named : Block.IsName name)
    (skinless : hasWord "xuiSkin".toList body = false) :
    (Block.opener Keyword.xuiSkin.word.toList).Silent none (entityText name body) [] := by
  have keyword := Block.isKeyword_word .xuiSkin
  have space : Braceless [' '] := by simp [Braceless]
  have split : entityText name body = ([' '] ++ Block.head .entity name) ++ '{' ::
      (([' '] ++ Block.head .component "CraftRecipe".toList) ++ '{' ::
        (body ++ '}' :: ([' '] ++ '}' :: [' ']))) := by
    simp [entityText, componentText, Block.written, Brace.braced]
  have last (previous : Option Char) : (Block.opener Keyword.xuiSkin.word.toList).Silent previous
      ('}' :: ([' '] ++ '}' :: [' '])) [] := by
    apply Block.opener_silent_step keyword (s := []) (by simp [Braceless]) (.inr rfl) (by simp)
    apply Block.opener_silent_step keyword space (.inr rfl) (by simp)
    exact Block.opener_silent_end space
  have inner (previous : Option Char) : (Block.opener Keyword.xuiSkin.word.toList).Silent previous
      (body ++ '}' :: ([' '] ++ '}' :: [' '])) [] := by
    rw [Pattern.silent_append, List.append_nil]
    exact ⟨Block.opener_silent_wordless keyword (.inr rfl) skinless _, last _⟩
  rw [split]
  apply Block.opener_silent_step keyword _ (.inl rfl) _
  · apply Block.opener_silent_step keyword _ (.inl rfl) (by decide) inner
    exact braceless_append.mpr ⟨space, Block.braceless_head _ isName_craftRecipe⟩
  · exact braceless_append.mpr ⟨space, Block.braceless_head _ named⟩
  · rw [Block.beforeWord_head _ _ named]
    decide

theorem readEntity_componentText (settings : Settings) (skins : Option SkinSheet)
    (balanced : Brace.Balanced body) :
    readEntity settings skins ⟨name, componentText body⟩ =
      (fun recipe => some { recipe with construction := true }) <$>
        RecipeBody.read settings (String.ofList name) body := by
  have found : Block.all .component (componentText body) = pure [⟨"CraftRecipe".toList, body⟩] :=
    Block.all_written isName_craftRecipe balanced (by decide) (by decide)
  have only (key : String) : (Block.bodies [⟨"CraftRecipe".toList, body⟩]).get? key =
      if "CraftRecipe" = key then some body else none := by
    simp only [Block.bodies, Dict.ofList, List.map_cons, List.map_nil, List.foldl_cons,
      List.foldl_nil, Dict.get?_insert]
    rfl
  have craft := only "CraftRecipe"
  have bare := only "UiConfig"
  have still := only "SpriteConfig"
  rw [if_pos rfl] at craft
  rw [if_neg (by decide)] at bare still
  have skinless : skin? skins (String.ofList name) (Block.bodies [⟨"CraftRecipe".toList, body⟩]) =
      none := by
    rw [skin?, bare]
    rfl
  simp only [readEntity, found, pure_bind, craft, still, skinless]
  simp

theorem all_written (settings : Settings) {module : Text} (moduleNamed : Block.IsName module)
    (named : Block.IsName name) (balanced : Brace.Balanced body)
    (skinless : hasWord "xuiSkin".toList body = false) :
    all settings (written module name body) =
      (fun recipe => [{ recipe with construction := true }]) <$>
        RecipeBody.read settings (String.ofList name) body := by
  have modules : Block.all .module (written module name body) =
      pure [⟨module, entityText name body⟩] := by
    have found := @Block.all_written .module _ _ [] [] moduleNamed
      (balanced_entityText named balanced) (by simp) (by simp)
    rwa [List.nil_append, List.append_nil] at found
  have entities : Block.all .entity (entityText name body) = pure [⟨name, componentText body⟩] :=
    Block.all_written named (balanced_componentText balanced) (by decide) (by decide)
  have read : readModule settings ⟨module, entityText name body⟩ =
      (fun recipe => [{ recipe with construction := true }]) <$>
        RecipeBody.read settings (String.ofList name) body := by
    rw [readModule, Block.pieces_silent (silent_xuiSkin named skinless)]
    simp only [pure_bind, Piece.filterMap_value?_kept, List.head?_nil, Option.mapM_none,
      Piece.withoutFirst_kept, entities]
    simp [readEntity_componentText settings none balanced]
  rw [all, modules]
  simp [read]

end Construction

namespace Text

theorem joinLines_append {early late : List Text} (nonempty : early ≠ []) (more : late ≠ []) :
    joinLines (early ++ late) = joinLines early ++ '\n' :: joinLines late := by
  induction early with
  | nil => contradiction
  | cons line early ih =>
    obtain ⟨next, rest, rfl⟩ := List.exists_cons_of_ne_nil more
    cases early with
    | nil => simp [joinLines, List.intercalate_cons_cons]
    | cons second early =>
      have later := ih (by simp)
      simp only [joinLines, List.cons_append, List.intercalate_cons_cons] at later ⊢
      rw [later]
      simp

theorem exists_of_mem_rawLines {t line : Text} (member : line ∈ rawLines t) :
    ∃ before after, t = before ++ (line ++ after) ∧ beginsWord (lastOf none before) := by
  obtain ⟨early, late, split⟩ := List.append_of_mem member
  have whole := joinLines_rawLines t
  have first : ∃ after, joinLines (line :: late) = line ++ after := by
    cases late with
    | nil => exact ⟨[], by simp [joinLines]⟩
    | cons next late =>
      exact ⟨'\n' :: joinLines (next :: late), by simp [joinLines, List.intercalate_cons_cons]⟩
  obtain ⟨after, first⟩ := first
  rw [split] at whole
  by_cases empty : early = []
  · subst empty
    exact ⟨[], after, by rw [← whole, ← first]; rfl, rfl⟩
  · rw [joinLines_append empty (by simp), first] at whole
    refine ⟨joinLines early ++ ['\n'], after, by simp [← whole], ?_⟩
    rw [lastOf_append, lastOf_cons, lastOf_nil]
    decide

end Text

namespace RecipeSource

theorem header?_of_first {c : Char} (solid : isBlank c = false) (other : foldsTo 'c' c = false)
    (t : Text) : header? (c :: t) = none := by
  have start : dropBlanks (c :: t) = c :: t := by simp [dropBlanks, solid]
  have word : "craftrecipe".toList = 'c' :: "raftrecipe".toList := by decide
  rw [header?, start, word, folded?, if_neg (by simp [other])]
  rfl

def closing : Text :=
  "\x7d \x7d \x7d".toList

/-- A head in a line of the body, or of the braces behind it, would be a word of the body. -/
theorem hasWord_of_header? {body line name : Text} (member : line ∈ rawLines (body ++ closing))
    (read : header? line = some name) : hasWord "craftRecipe".toList body := by
  obtain ⟨before, after, split, begins⟩ := exists_of_mem_rawLines member
  obtain ⟨lead, word, gap, rest, leading, folds, spaced, blanks, -, -, -, rfl⟩ :=
    header?_eq_some_iff.mp read
  have lower : asciiLower word = "craftrecipe".toList := asciiLower_of_folds folds (by decide)
  have letters : ∀ c ∈ word, c.toLower ∈ "craftrecipe".toList := by
    intro c inside
    rw [← lower]
    exact List.mem_map_of_mem inside
  have nonempty : word ≠ [] := by
    rintro rfl
    exact absurd lower (by decide)
  have free : Braceless word := by
    intro c inside
    have letter := letters c inside
    constructor
    · rintro rfl
      exact absurd letter (by decide)
    · rintro rfl
      exact absurd letter (by decide)
  have begins' : beginsWord (lastOf none (before ++ lead)) := by
    rw [lastOf_append]
    exact beginsWord_blanks begins leading
  have split' : body ++ closing =
      (before ++ lead) ++ (word ++ (gap ++ (name ++ rest ++ after))) := by
    rw [split]
    simp
  rcases List.append_eq_append_iff.mp split' with ⟨between, -, late⟩ | ⟨between, rfl, late⟩
  · -- No letter of the head stands among the closing braces.
    obtain ⟨c, t, rfl⟩ := List.exists_cons_of_ne_nil nonempty
    have inside : c ∈ closing := by
      rw [late]
      simp
    have foreign : ∀ d ∈ closing, d.toLower ∉ "craftrecipe".toList := by decide
    exact absurd (letters c (by simp)) (foreign c inside)
  · apply hasWord_before_brace _ nonempty free (.inr rfl) begins' spaced blanks late.symm
    rw [sameIgnoringCase, lower]
    decide

theorem all_construction {module name body : Text} (moduleNamed : Block.IsName module)
    (named : Block.IsName name) (unreturned : '\r' ∉ body)
    (headless : hasWord "craftRecipe".toList body = false) :
    all (Construction.written module name body) = pure [] := by
  -- What stands before the body is one line that begins with a module's head.
  obtain ⟨lead, starts, single, unreturned'⟩ : ∃ lead,
      Construction.written module name body = ('m' :: lead) ++ (body ++ closing) ∧
        '\n' ∉ 'm' :: lead ∧ '\r' ∉ 'm' :: lead := by
    have absent {keyword : Keyword} {name : Text} (named : Block.IsName name) {c : Char}
        (ends : c = '\n' ∨ c = '\r') : c ∉ Block.head keyword name := by
      rcases ends with rfl | rfl <;> exact Block.not_mem_head _ named (by decide) (by decide)
    have front : Block.head .module module = 'm' :: ("odule ".toList ++ module ++ [' ']) := rfl
    have opening {c : Char} (ends : c = '\n' ∨ c = '\r') :
        c ∉ Block.head .module module ++ ("\x7b ".toList ++ (Block.head .entity name ++
          ("\x7b ".toList ++ (Block.head .component "CraftRecipe".toList ++ "\x7b".toList)))) := by
      have braces : c ∉ "\x7b ".toList ∧ c ∉ "\x7b".toList := by
        rcases ends with rfl | rfl <;> decide
      simp only [List.mem_append, not_or]
      exact ⟨absent moduleNamed ends, braces.1, absent named ends, braces.1,
        absent Construction.isName_craftRecipe ends, braces.2⟩
    rw [front, List.cons_append] at opening
    refine ⟨_, ?_, opening (.inl rfl), opening (.inr rfl)⟩
    rw [← List.cons_append, ← front]
    simp [Construction.written, Construction.entityText, Construction.componentText, Block.written,
      Brace.braced, closing]
  have lined : lines (Construction.written module name body) =
      rawLines (Construction.written module name body) := by
    have split : ('m' :: lead) ++ (body ++ closing) =
        (('m' :: lead) ++ (body ++ "\x7d \x7d ".toList)) ++ ['}'] := by
      simp [closing]
    rw [starts, split]
    apply lines_eq_rawLines _ (by decide)
    simp only [List.mem_append, not_or]
    exact ⟨unreturned', unreturned, by decide⟩
  obtain ⟨first, more, cut⟩ :=
    List.exists_cons_of_ne_nil (splitBy_ne_nil (· == '\n') (body ++ closing))
  have raw := rawLines_append single cut
  have unheaded : ∀ line ∈ rawLines (Construction.written module name body), header? line = none := by
    rw [starts, raw]
    intro line inside
    rcases List.mem_cons.mp inside with rfl | later
    · exact header?_of_first (by decide) (by decide) _
    · rw [Option.eq_none_iff_forall_ne_some]
      intro name read
      have there := hasWord_of_header? (by rw [rawLines, cut]; simp [later]) read
      rw [headless] at there
      contradiction
  rw [all, lined, gather_headless unheaded]
  rfl

end RecipeSource

namespace Script

theorem readBlock_of_body? (settings : Settings) {block : RecipeSource} {body : Text}
    (inside : block.body? = some body) :
    readBlock settings block =
      some <$> RecipeBody.read settings (String.ofList block.name) body := by
  rw [readBlock, inside]
  rfl

/-- No module is found in a recipe on its own: behind its name there is no second word, and its body
does not name one. -/
theorem silent_module {name body : Text} (named : Block.IsName name)
    (moduleless : hasWord "module".toList body = false) :
    (Block.opener Keyword.module.word.toList).Silent none (Block.written .craftRecipe name body)
      [] := by
  have keyword := Block.isKeyword_word .module
  have split : Block.written .craftRecipe name body =
      Block.head .craftRecipe name ++ '{' :: (body ++ ([] ++ '}' :: [])) := by
    simpa using Block.written_append .craftRecipe name body []
  rw [split]
  apply Block.opener_silent_step keyword (Block.braceless_head _ named) (.inl rfl)
  · have before := Block.beforeWord_head [] .craftRecipe named
    rw [List.nil_append] at before
    rw [before]
    decide
  · intro previous
    rw [Pattern.silent_append]
    refine ⟨Block.opener_silent_wordless keyword (.inr rfl) moduleless _, ?_⟩
    apply Block.opener_silent_step keyword (by simp [Braceless]) (.inr rfl) (by simp)
    intro previous
    exact Pattern.silent_nil _ previous []

theorem recipes_alone (settings : Settings) {name body : Text} (named : Block.IsName name)
    (balanced : Brace.Balanced body) (unreturned : '\r' ∉ body)
    (plain : occurs ['/', '*'] name = false) (plain' : occurs ['/', '*'] body = false)
    (moduleless : hasWord "module".toList body = false) :
    (recipes settings (Block.written .craftRecipe name body)).value =
        [(RecipeBody.read settings (String.ofList name) body).value] ∧
      (recipes settings (Block.written .craftRecipe name body)).issues =
        (RecipeBody.read settings (String.ofList name) body).issues := by
  obtain ⟨block, found, rfl, inside⟩ :=
    RecipeSource.all_written named balanced unreturned plain plain'
  have stripped := Comment.strip_signless (Block.signless_written .craftRecipe plain plain')
  have read := readBlock_of_body? settings inside
  have constructed : Construction.all settings (Block.written .craftRecipe block.name body) =
      pure [] := by
    rw [Construction.all, Block.all_silent (silent_module named moduleless)]
    rfl
  constructor
  · rw [value_recipes, stripped, found, constructed]
    simp [read]
  · rw [issues_recipes, commentIssues, stripped, found, constructed]
    simp [read]

theorem recipes_component (settings : Settings) {module name body : Text}
    (moduleNamed : Block.IsName module) (named : Block.IsName name)
    (balanced : Brace.Balanced body) (unreturned : '\r' ∉ body)
    (plain : occurs ['/', '*'] module = false) (plain' : occurs ['/', '*'] name = false)
    (plain'' : occurs ['/', '*'] body = false)
    (skinless : hasWord "xuiSkin".toList body = false)
    (headless : hasWord "craftRecipe".toList body = false) :
    (recipes settings (Construction.written module name body)).value =
        [{ (RecipeBody.read settings (String.ofList name) body).value with construction := true }] ∧
      (recipes settings (Construction.written module name body)).issues =
        (RecipeBody.read settings (String.ofList name) body).issues := by
  have stripped := Comment.strip_signless (Construction.signless_written plain plain' plain'')
  have found := RecipeSource.all_construction moduleNamed named unreturned headless
  have constructed := Construction.all_written settings moduleNamed named balanced skinless
  constructor
  · rw [value_recipes, stripped, found, constructed]
    simp
  · rw [issues_recipes, commentIssues, stripped, found, constructed]
    simp

/-- A recipe that stands alone and the same recipe as the component of an entity: one recipe each, the
same but for being a construction, and the same issues. -/
theorem report_component (settings : Settings) {module name body : Text}
    (moduleNamed : Block.IsName module) (named : Block.IsName name)
    (balanced : Brace.Balanced body) (unreturned : '\r' ∉ body)
    (plain : occurs ['/', '*'] module = false) (plain' : occurs ['/', '*'] name = false)
    (plain'' : occurs ['/', '*'] body = false)
    (wordless : ∀ word ∈ ["module", "xuiSkin", "craftRecipe"], hasWord word.toList body = false) :
    ∃ recipe : Recipe, recipe.construction = false ∧
      (report settings (Block.written .craftRecipe name body)).recipes = [recipe] ∧
      (report settings (Construction.written module name body)).recipes =
        [{ recipe with construction := true }] ∧
      (report settings (Construction.written module name body)).issues =
        (report settings (Block.written .craftRecipe name body)).issues := by
  obtain ⟨value, issues⟩ := recipes_alone settings named balanced unreturned plain' plain''
    (wordless "module" (by simp))
  obtain ⟨value', issues'⟩ := recipes_component settings moduleNamed named balanced unreturned plain
    plain' plain'' (wordless "xuiSkin" (by simp)) (wordless "craftRecipe" (by simp))
  refine ⟨_, RecipeBody.read_construction settings (String.ofList name) body, ?_, ?_, ?_⟩
  · rw [recipes_report, value]
    rfl
  · rw [recipes_report, value']
    rfl
  · rw [issues_report, issues_report, issues, issues']

/-- A recipe named like a module's head, whose body has lines, blocks of other kinds and a line that
is noted. -/
theorem report_component_nested :
    let name := "module".toList
    let body := "\n inputs \x7b\nitem 1 [Base.Log]\nodd line\n\x7d
entity E \x7b component Other \x7b k = 1 \x7d \x7d\n submodule = 2 ".toList
    ∃ recipe : Recipe, recipe.construction = false ∧
      (report {} (Block.written .craftRecipe name body)).recipes = [recipe] ∧
      (report {} (Construction.written "M".toList name body)).recipes =
        [{ recipe with construction := true }] ∧
      (report {} (Construction.written "M".toList name body)).issues =
        (report {} (Block.written .craftRecipe name body)).issues := by
  intro name body
  have balanced : Brace.Balanced body := by
    have closes : Brace.close? (body ++ ['}']) = some (body, []) := by decide +kernel
    exact (Brace.close?_eq_some_iff.mp closes).2
  exact report_component {} (by constructor <;> decide) (by constructor <;> decide) balanced
    (by decide) (by decide) (by decide) (by decide) (by decide +kernel)

end Script

end CraftScript
