import CraftScript.RecipeBody
import CraftScript.Proofs.Braces
import CraftScript.Proofs.Search

/-! Heads of blocks and sections. A head is read inside the stretch of text that leads up to an
opening brace, so where it begins is settled by the last words of that stretch. -/
namespace CraftScript

namespace Text

theorem braceless_blanks {gap : Text} (blanks : ∀ c ∈ gap, isBlank c) : Braceless gap := by
  intro c inside
  have blank := blanks c inside
  constructor
  · rintro rfl
    exact absurd blank (by decide)
  · rintro rfl
    exact absurd blank (by decide)

theorem braceless_name {name : Text} (every : ∀ c ∈ name, Block.isNameChar c) :
    Braceless name := by
  intro c inside
  have named := every c inside
  simp only [Block.isNameChar, Bool.and_eq_true, decide_eq_true_eq] at named
  exact ⟨named.1.2, named.2⟩

def beforeWord (s : Text) : Text :=
  ((s.reverse.dropWhile isBlank).dropWhile (!isBlank ·)).dropWhile isBlank

theorem beforeWord_append {front gap word gap' : Text} (ends : Stops isBlank front.reverse)
    (nonempty : gap ≠ []) (blanks : ∀ c ∈ gap, isBlank c) (named : word ≠ [])
    (solid : ∀ c ∈ word, isBlank c = false) (blanks' : ∀ c ∈ gap', isBlank c) :
    beforeWord (front ++ gap ++ word ++ gap') = front.reverse := by
  have order : (front ++ gap ++ word ++ gap').reverse =
      gap'.reverse ++ (word.reverse ++ (gap.reverse ++ front.reverse)) := by
    simp [List.reverse_append]
  have wordStops : Stops isBlank (word.reverse ++ (gap.reverse ++ front.reverse)) := by
    obtain ⟨c, back, split⟩ := List.exists_cons_of_ne_nil (List.reverse_ne_nil_iff.mpr named)
    rw [split]
    exact stops_cons (solid c (List.mem_reverse.mp (by simp [split]))) _
  have gapStops : Stops (!isBlank ·) (gap.reverse ++ front.reverse) := by
    obtain ⟨c, back, split⟩ := List.exists_cons_of_ne_nil (List.reverse_ne_nil_iff.mpr nonempty)
    rw [split]
    exact stops_cons (by simp [blanks c (List.mem_reverse.mp (by simp [split]))]) _
  unfold beforeWord
  rw [order, dropWhile_append_stop (by simpa using blanks') wordStops,
    dropWhile_append_stop (by simpa using solid) gapStops,
    dropWhile_append_stop (by simpa using blanks) ends]

end Text

open Text

def IsKeyword (word : Text) : Prop :=
  word ≠ [] ∧ ∀ c ∈ word, Block.isNameChar c

instance (word : Text) : Decidable (IsKeyword word) :=
  inferInstanceAs (Decidable (_ ∧ _))

namespace Block

theorem isBlank_eq_false {c : Char} (named : isNameChar c) : isBlank c = false := by
  simp only [isNameChar, Bool.and_eq_true, Bool.not_eq_true', decide_eq_true_eq] at named
  exact named.1.1

end Block

namespace IsKeyword

variable {word : Text}

theorem braceless (keyword : IsKeyword word) : Braceless word :=
  braceless_name keyword.2

theorem solid (keyword : IsKeyword word) : ∀ c ∈ word, isBlank c = false :=
  fun c inside => Block.isBlank_eq_false (keyword.2 c inside)

theorem ends (keyword : IsKeyword word) (t : Text) : Stops isBlank (word.reverse ++ t) :=
  stops_append (stops_of_forall (by simpa using keyword.solid)) (by simpa using keyword.1) t

theorem ne_brace_cons (keyword : IsKeyword word) {b : Char} (brace : b = '{' ∨ b = '}')
    (t rest : Text) : b :: t ≠ word ++ rest := by
  intro same
  obtain ⟨c, back, split⟩ := List.exists_cons_of_ne_nil keyword.1
  rw [split] at same
  obtain ⟨rfl, -⟩ := List.cons.inj same
  have notBrace := keyword.braceless b (by simp [split])
  rcases brace with rfl | rfl
  · exact notBrace.1 rfl
  · exact notBrace.2 rfl

end IsKeyword

namespace Block

theorem isKeyword_word (keyword : Keyword) : IsKeyword keyword.word.toList := by
  cases keyword <;> decide

theorem opener_eq_some_iff {word t name inside : Text} {previous : Option Char} :
    opener word previous t = some (name, inside) ↔
      beginsWord previous ∧ ∃ gap gap', gap ≠ [] ∧ (∀ c ∈ gap, isBlank c) ∧ name ≠ [] ∧
        (∀ c ∈ name, isNameChar c) ∧ (∀ c ∈ gap', isBlank c) ∧
        t = word ++ gap ++ name ++ gap' ++ '{' :: inside := by
  simp only [opener, Option.bind_eq_bind, Option.bind_eq_some_iff, guard_eq_some_iff,
    Option.pure_def, Option.some.injEq, Prod.mk.injEq, Prod.exists, literal?_eq_some_iff,
    afterBlanks?_eq_some_iff, run?_eq_some_iff]
  constructor
  · rintro ⟨_, rfl, _, begins, _, ⟨gap, nonempty, blanks, -, rfl⟩, _, behind,
      ⟨named, every, -, rfl⟩, _, opens, rfl, rfl⟩
    obtain ⟨gap', blanks', split⟩ := exists_gap behind
    rw [opens] at split
    exact ⟨begins, gap, gap', nonempty, blanks, named, every, blanks', by simp [split]⟩
  · rintro ⟨begins, gap, gap', nonempty, blanks, named, every, blanks', rfl⟩
    have braceStops : Stops isBlank ('{' :: inside) := stops_cons (by decide) _
    have nameStops : Stops isNameChar (gap' ++ '{' :: inside) := by
      cases gap' with
      | nil => exact stops_cons (by decide) _
      | cons c gap' => exact stops_cons (by simp [isNameChar, blanks' c (by simp)]) _
    have gapStops : Stops isBlank (name ++ (gap' ++ '{' :: inside)) := by
      cases name with
      | nil => contradiction
      | cons c name => exact stops_cons (isBlank_eq_false (every c (by simp))) _
    refine ⟨gap ++ (name ++ (gap' ++ '{' :: inside)), by simp, (), begins, _,
      ⟨gap, nonempty, blanks, gapStops, rfl⟩, name, _, ⟨named, every, nameStops, rfl⟩, inside, ?_,
      rfl, rfl⟩
    exact dropBlanks_append_stop blanks' braceStops

/-- A scan goes up to its first head. If there is none, or one whose braces never close, nothing is
found; else the scan goes on behind the block. -/
theorem scanFrom_cases (word : Text) (previous : Option Char) (t : Text) :
    ((opener word).firstFrom? previous t = none ∧
      scanFrom word 0 previous t = ⟨t.map .kept, none⟩) ∨
    ∃ found, (opener word).firstFrom? previous t = some found ∧
      ((Brace.close? found.after = none ∧
        scanFrom word 0 previous t = ⟨t.map .kept, some found.value⟩) ∨
      ∃ body source after, Brace.close? found.after = some (body, after) ∧ source ≠ [] ∧
        t = found.before ++ source ++ after ∧ scanFrom word 0 previous t =
          ⟨found.before.map .kept ++ .found ⟨found.value, body⟩ source ::
            (scanFrom word 0 (lastOf previous (found.before ++ source)) after).pieces,
          (scanFrom word 0 (lastOf previous (found.before ++ source)) after).unclosed⟩) := by
  cases first : (opener word).firstFrom? previous t with
  | none =>
    have scanned := scanFrom_silent (Pattern.silent_of_firstFrom? first)
    rw [List.append_nil, scanFrom, List.append_nil] at scanned
    exact .inl ⟨rfl, scanned⟩
  | some found =>
    refine .inr ⟨found, rfl, ?_⟩
    obtain ⟨here, rfl, read⟩ := Pattern.firstFrom?_eq_some first
    have scanned := scanFrom_silent (Pattern.silent_before_firstFrom? first rfl)
    obtain ⟨head, rfl⟩ : ∃ head, here = head ++ '{' :: found.after := by
      obtain ⟨-, gap, gap', -, -, -, -, -, split⟩ := opener_eq_some_iff.mp read
      exact ⟨_, split⟩
    cases closed : Brace.close? found.after with
    | none =>
      refine .inl ⟨rfl, ?_⟩
      rw [scanned, scanFrom_unclosed (by simp) read closed, ← List.map_append]
    | some parts =>
      obtain ⟨body, after⟩ := parts
      obtain ⟨inside, -⟩ := Brace.close?_eq_some_iff.mp closed
      have split : head ++ '{' :: found.after = head ++ '{' :: body ++ ['}'] ++ after := by
        simp [inside]
      rw [split] at read scanned ⊢
      refine .inr ⟨body, _, after, rfl, by simp, (List.append_assoc ..).symm, ?_⟩
      rw [scanned, scanFrom_found (by simp) read closed, lastOf_append previous]
      rfl

/-- A head that begins in a stretch fills it to its end, and the stretch leads to `{`. -/
theorem opener_stretch {word s rest name inside : Text} {previous : Option Char} {b : Char}
    (keyword : IsKeyword word) (free : Braceless s) (brace : b = '{' ∨ b = '}')
    (read : opener word previous (s ++ b :: rest) = some (name, inside)) :
    b = '{' ∧ inside = rest ∧ ∃ gap gap', gap ≠ [] ∧ (∀ c ∈ gap, isBlank c) ∧ name ≠ [] ∧
      (∀ c ∈ name, isNameChar c) ∧ (∀ c ∈ gap', isBlank c) ∧
      s = word ++ gap ++ name ++ gap' := by
  obtain ⟨-, gap, gap', nonempty, blanks, named, every, blanks', same⟩ := opener_eq_some_iff.mp read
  have headFree : Braceless (word ++ gap ++ name ++ gap') := by
    simp only [braceless_append]
    exact ⟨⟨⟨keyword.braceless, braceless_blanks blanks⟩, braceless_name every⟩, braceless_blanks blanks'⟩
  obtain ⟨whole, opens, behind⟩ := first_brace_unique free headFree brace (.inl rfl) same
  exact ⟨opens, behind.symm, gap, gap', nonempty, blanks, named, every, blanks', whole⟩

theorem beforeWord_opener (front : Text) {word s rest name inside : Text}
    {previous : Option Char} {b : Char} (keyword : IsKeyword word) (free : Braceless s)
    (brace : b = '{' ∨ b = '}')
    (read : opener word previous (s ++ b :: rest) = some (name, inside)) :
    b = '{' ∧ beforeWord (front ++ s) = word.reverse ++ front.reverse := by
  obtain ⟨opens, -, gap, gap', spaced, blanks, named, every, blanks', rfl⟩ :=
    opener_stretch keyword free brace read
  refine ⟨opens, ?_⟩
  have split : front ++ (word ++ gap ++ name ++ gap') = (front ++ word) ++ gap ++ name ++ gap' := by
    simp
  have frontEnds : Stops isBlank (front ++ word).reverse := by
    rw [List.reverse_append]
    exact keyword.ends front.reverse
  rw [split, beforeWord_append frontEnds spaced blanks named
    (fun c inside => isBlank_eq_false (every c inside)) blanks', List.reverse_append]

theorem opener_silent {word s rest : Text} {b : Char} (keyword : IsKeyword word)
    (free : Braceless s) (brace : b = '{' ∨ b = '}')
    (absent : b = '{' → ¬ word.reverse <+: beforeWord s)
    (previous : Option Char) : (opener word).Silent previous s (b :: rest) := by
  rintro front c back rfl
  rw [Option.eq_none_iff_forall_ne_some]
  rintro ⟨name, inside⟩ read
  rw [← List.cons_append] at read
  obtain ⟨opens, before⟩ := beforeWord_opener front keyword
    (braceless_append.mp free).2 brace read
  exact absent opens ⟨front.reverse, before.symm⟩

theorem opener_silent_before {word s head rest : Text} (keyword : IsKeyword word)
    (free : Braceless (s ++ head))
    (here : beforeWord (s ++ head) = word.reverse ++ s.reverse) (previous : Option Char) :
    (opener word).Silent previous s (head ++ '{' :: rest) := by
  rintro front c back rfl
  rw [Option.eq_none_iff_forall_ne_some]
  rintro ⟨name, inside⟩ read
  have split : c :: (back ++ (head ++ '{' :: rest)) = (c :: back ++ head) ++ '{' :: rest := by simp
  have laterFree : Braceless (c :: back ++ head) := by
    rw [List.append_assoc] at free
    exact (braceless_append.mp free).2
  rw [split] at read
  obtain ⟨-, before⟩ := beforeWord_opener front keyword laterFree (.inl rfl) read
  rw [← List.append_assoc, here] at before
  have same := congrArg List.length (List.append_cancel_left before)
  simp only [List.length_reverse, List.length_append, List.length_cons] at same
  omega

theorem opener_silent_step {word s after rest : Text} {b : Char} (keyword : IsKeyword word)
    (free : Braceless s) (brace : b = '{' ∨ b = '}')
    (absent : b = '{' → ¬ word.reverse <+: beforeWord s)
    (later : ∀ previous, (opener word).Silent previous after rest) (previous : Option Char) :
    (opener word).Silent previous (s ++ b :: after) rest := by
  rw [Pattern.silent_append, Pattern.silent_cons]
  refine ⟨opener_silent keyword free brace absent previous, ?_, later _⟩
  rw [Option.eq_none_iff_forall_ne_some]
  rintro ⟨name, inside⟩ read
  obtain ⟨-, gap, gap', -, -, -, -, -, same⟩ := opener_eq_some_iff.mp read
  simp only [List.append_assoc] at same
  exact keyword.ne_brace_cons brace _ _ same

theorem opener_silent_end {word s : Text} (free : Braceless s) (previous : Option Char) :
    (opener word).Silent previous s [] := by
  rintro front c back rfl
  rw [Option.eq_none_iff_forall_ne_some]
  rintro ⟨name, inside⟩ read
  obtain ⟨-, gap, gap', -, -, -, -, -, same⟩ := opener_eq_some_iff.mp read
  have brace : '{' ∈ c :: (back ++ []) := by
    rw [same]
    simp
  rw [List.append_nil] at brace
  exact absurd rfl (free '{' (by simp [brace])).1

end Block

namespace RecipeBody

theorem sectionOpener_eq_some_iff {keyword t inside : Text} {previous : Option Char} :
    sectionOpener keyword previous t = some ((), inside) ↔
      beginsWord previous ∧ ∃ gap, (∀ c ∈ gap, isBlank c) ∧ t = keyword ++ gap ++ '{' :: inside := by
  simp only [sectionOpener, Option.bind_eq_bind, Option.bind_eq_some_iff, guard_eq_some_iff,
    Option.pure_def, Option.some.injEq, Prod.mk.injEq, true_and, literal?_eq_some_iff]
  constructor
  · rintro ⟨behind, rfl, _, begins, _, opens, rfl⟩
    obtain ⟨gap, blanks, split⟩ := exists_gap behind
    rw [opens] at split
    exact ⟨begins, gap, blanks, by simp [split]⟩
  · rintro ⟨begins, gap, blanks, rfl⟩
    have braceStops : Stops isBlank ('{' :: inside) := stops_cons (by decide) _
    exact ⟨gap ++ '{' :: inside, by simp, (), begins, inside,
      dropBlanks_append_stop blanks braceStops, rfl⟩

theorem mapper_eq_some_iff {previous : Option Char} {t rest : Text} {block : Block} :
    mapper previous t = some (block, rest) ↔ ∃ inside,
      Block.opener "itemMapper".toList previous t = some (block.name, inside) ∧
        inside.splitOnce? '}' = some (block.body, rest) := by
  obtain ⟨name, body⟩ := block
  simp only [mapper, Option.bind_eq_bind, Option.bind_eq_some_iff, Prod.exists, Option.pure_def,
    Option.some.injEq, Prod.mk.injEq, Block.mk.injEq]
  constructor
  · rintro ⟨_, inside, head, _, _, cut, ⟨rfl, rfl⟩, rfl⟩
    exact ⟨inside, head, cut⟩
  · rintro ⟨inside, head, cut⟩
    exact ⟨name, inside, head, body, rest, cut, ⟨rfl, rfl⟩, rfl⟩

/-- A section's head is the last word of the stretch that leads to its brace, so it is found where
that word begins. -/
theorem sectionOpener_silent_before {word s gap rest : Text} (keyword : IsKeyword word)
    (blanks : ∀ c ∈ gap, isBlank c) (free : Braceless s) (previous : Option Char) :
    (sectionOpener word).Silent previous s (word ++ gap ++ '{' :: rest) := by
  rintro front c back rfl
  rw [Option.eq_none_iff_forall_ne_some]
  rintro ⟨⟨⟩, inside⟩ read
  obtain ⟨-, gap', blanks', same⟩ := sectionOpener_eq_some_iff.mp read
  have laterFree : Braceless (c :: back ++ (word ++ gap)) :=
    braceless_append.mpr ⟨(braceless_append.mp free).2,
      braceless_append.mpr ⟨keyword.braceless, braceless_blanks blanks⟩⟩
  have headFree : Braceless (word ++ gap') :=
    braceless_append.mpr ⟨keyword.braceless, braceless_blanks blanks'⟩
  have split : (c :: back ++ (word ++ gap)) ++ '{' :: rest = word ++ gap' ++ '{' :: inside := by
    rw [← same]
    simp
  obtain ⟨whole, -, -⟩ := first_brace_unique laterFree headFree (.inl rfl) (.inl rfl) split
  -- Read backwards, both end in blanks and then the keyword, so nothing stands before it.
  have backwards := congrArg (fun t : Text => t.reverse.dropWhile isBlank) whole
  simp only [List.reverse_append, List.append_assoc] at backwards
  rw [dropWhile_append_stop (by simpa using blanks) (keyword.ends _)] at backwards
  have bare : gap'.reverse ++ word.reverse = gap'.reverse ++ (word.reverse ++ []) := by simp
  rw [bare, dropWhile_append_stop (by simpa using blanks') (keyword.ends _)] at backwards
  have empty := List.append_cancel_left backwards
  simp at empty

theorem cutSection?_of_silent {word s gap inside rest : Text} (blanks : ∀ c ∈ gap, isBlank c)
    (silent : (sectionOpener word).Silent none s (word ++ gap ++ '{' :: (inside ++ '}' :: rest)))
    (begins : beginsWord (lastOf none s)) (balanced : Brace.Balanced inside) :
    cutSection? word (s ++ (word ++ gap ++ '{' :: (inside ++ '}' :: rest))) =
      some (inside, s ++ rest) := by
  have read : sectionOpener word (lastOf none s)
      ((word ++ gap ++ ['{']) ++ (inside ++ '}' :: rest)) = some ((), inside ++ '}' :: rest) :=
    sectionOpener_eq_some_iff.mpr ⟨begins, gap, blanks, by simp⟩
  have split : word ++ gap ++ '{' :: (inside ++ '}' :: rest) =
      (word ++ gap ++ ['{']) ++ (inside ++ '}' :: rest) := by simp
  have found := Pattern.firstFrom?_found (by simp) read
  have closed := Brace.close?_balanced balanced rest
  rw [split] at silent ⊢
  have first := Pattern.firstFrom?_silent silent
  rw [found] at first
  simp only [cutSection?, Pattern.first?, first, Option.map_some, Option.bind_eq_bind,
    Option.bind_some, closed, List.append_nil]
  rfl

theorem cutSection?_eq {word s gap inside rest : Text} (keyword : IsKeyword word)
    (blanks : ∀ c ∈ gap, isBlank c) (free : Braceless s) (begins : beginsWord (lastOf none s))
    (balanced : Brace.Balanced inside) :
    cutSection? word (s ++ (word ++ gap ++ '{' :: (inside ++ '}' :: rest))) =
      some (inside, s ++ rest) :=
  cutSection?_of_silent blanks (sectionOpener_silent_before keyword blanks free none) begins balanced

theorem takeSection_of_cut (settings : Settings) (recipe : String) {keyword : String}
    {body inside rest : Text} (cut : cutSection? keyword.toList body = some (inside, rest)) :
    takeSection settings recipe keyword body =
      ⟨((Section.read settings inside).value, rest), (Section.read settings inside).issues⟩ := by
  rw [takeSection, cut]
  exact congrArg (WithIssues.mk _) (List.append_nil _)

/-- A body step by step: its mappers, its inputs, its outputs, and the properties that are left. -/
theorem read_steps {settings : Settings} {name : String} {body afterMappers afterInputs rest : Text}
    {mappers : Mappers} {inputs outputs : Section}
    (mapped : takeMappers body = (mappers, afterMappers))
    (taken : (takeSection settings name "inputs" afterMappers).value = (inputs, afterInputs))
    (yielded : (takeSection settings name "outputs" afterInputs).value = (outputs, rest)) :
    (read settings name body).value = (Property.all rest).foldl store {
        name := name
        inputs := inputs.entries
        outputs := outputs.entries ++ inputs.carriedOver ++ outputs.carriedOver
        mappers := mappers.nonempty? } ∧
      (read settings name body).issues =
        (takeSection settings name "inputs" afterMappers).issues ++
          (takeSection settings name "outputs" afterInputs).issues := by
  simp only [read, mapped, WithIssues.value_bind, WithIssues.issues_bind, taken, yielded,
    WithIssues.value_pure, WithIssues.issues_pure, List.append_nil, and_self]

end RecipeBody

end CraftScript
