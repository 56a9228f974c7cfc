import CraftScript.Proofs.Attributes
import CraftScript.Proofs.Returns
import CraftScript.Proofs.Bytewise.Scanning

/-! Occurrences of patterns by the bytes they cover, and what is cut out of a text at such places:
blocks with their bodies, sections, attributes and line comments. -/
namespace CraftScript.Bytewise

open Text

variable {α : Type}

def occurrence? (p : Pattern α) (t : Text) (cursor : Nat) : Option (Option (α × Span)) := do
  let (passed, rest) ← t.splitBytes? cursor
  return (p.firstFrom? passed.getLast? rest).map fun found =>
    (found.value, ⟨cursor + byteSize found.before, byteSize t - byteSize found.after⟩)

def headed? (p : Pattern α) (t : Text) (cursor : Nat) :
    Option (Option (α × Span × Option (Text × Nat))) := do
  match ← occurrence? p t cursor with
  | none => return none
  | some (value, head) =>
    let brace ← head.stop.ppred
    return some (value, head, ← balanced? t brace)

/-- The blocks at or behind byte `cursor` with the bytes they cover, and the name of the head whose
braces never close, if one ended the search. A search that would not go forward has no answer. -/
def blocksFrom? (word t : Text) (cursor : Nat) : Option (List (Block × Span) × Option Text) := do
  match ← headed? (Block.opener word) t cursor with
  | none => return ([], none)
  | some (name, _, none) => return ([], some name)
  | some (name, head, some (block, stop)) =>
    if cursor < stop ∧ stop ≤ byteSize t then
      let (blocks, unclosed) ← blocksFrom? word t stop
      return ((⟨name, Brace.inner block⟩, ⟨head.start, stop⟩) :: blocks, unclosed)
    else none
termination_by byteSize t - cursor

theorem occurrence?_append (p : Pattern α) (passed rest : Text) :
    occurrence? p (passed ++ rest) (byteSize passed) =
      some ((p.firstFrom? passed.getLast? rest).map fun found => (found.value,
        ⟨byteSize (passed ++ found.before), byteSize (passed ++ rest) - byteSize found.after⟩)) := by
  simp only [occurrence?, splitBytes?_append, Option.bind_eq_bind, Option.bind_some,
    Option.pure_def, byteSize_append]

def EndsOnBrace (p : Pattern α) : Prop :=
  ∀ previous t value rest, p previous t = some (value, rest) → ∃ head, t = head ++ '{' :: rest

theorem endsOnBrace_opener (word : Text) : EndsOnBrace (Block.opener word) := by
  intro previous t name inside read
  obtain ⟨-, gap, gap', -, -, -, -, -, rfl⟩ := Block.opener_eq_some_iff.mp read
  exact ⟨_, rfl⟩

theorem endsOnBrace_sectionOpener (keyword : Text) :
    EndsOnBrace (RecipeBody.sectionOpener keyword) := by
  intro previous t _ inside read
  obtain ⟨-, gap, -, rfl⟩ := RecipeBody.sectionOpener_eq_some_iff.mp read
  exact ⟨_, rfl⟩

theorem headed?_append {p : Pattern α} (ends : EndsOnBrace p) (passed rest : Text) :
    headed? p (passed ++ rest) (byteSize passed) =
      some ((p.firstFrom? passed.getLast? rest).map fun found => (found.value,
        ⟨byteSize (passed ++ found.before), byteSize (passed ++ rest) - byteSize found.after⟩,
        (Brace.close? found.after).map fun (inside, after) =>
          (Brace.braced inside, byteSize (passed ++ rest) - byteSize after))) := by
  cases first : p.firstFrom? passed.getLast? rest with
  | none => simp [headed?, occurrence?_append, first]
  | some found =>
    obtain ⟨here, rfl, read⟩ := Pattern.firstFrom?_eq_some first
    obtain ⟨head, rfl⟩ := ends _ _ _ _ read
    generalize whole : passed ++ (found.before ++ (head ++ '{' :: found.after)) = t
    have split : t = passed ++ found.before ++ head ++ [] ++ '{' :: found.after := by simp [← whole]
    have stop : byteSize t - byteSize found.after =
        byteSize (passed ++ found.before ++ head) + 1 := by
      rw [byteSize_step_ascii (passed ++ found.before) head (c := '{') (by decide)]
      exact byteSize_sub (by simp [← whole])
    have moved := occurrence?_append p passed (found.before ++ (head ++ '{' :: found.after))
    rw [first, whole] at moved
    simp only [headed?, moved, Option.map_some, Option.bind_eq_bind, Option.bind_some, stop,
      Nat.ppred_succ, Option.pure_def]
    rw [balanced?_first (by simp) split]
    rfl

theorem located_kept_append (start : Nat) (t : Text) (pieces : List (Piece α)) :
    Piece.located start (t.map .kept ++ pieces) = Piece.located (start + byteSize t) pieces := by
  induction t generalizing start with
  | nil => rfl
  | cons c t ih =>
    rw [List.map_cons, List.cons_append, Piece.located, ih, byteSize, Nat.add_assoc]

theorem located_kept (start : Nat) (t : Text) :
    Piece.located start (t.map (Piece.kept (α := α))) = [] := by
  have nothing := located_kept_append start t ([] : List (Piece α))
  rwa [List.append_nil, Piece.located] at nothing

theorem lastOf_getLast? (s t : Text) : lastOf s.getLast? t = (s ++ t).getLast? := by
  rw [lastOf, List.getLast?_append]

/-- The search by positions finds the blocks of the scan, each where it stands. -/
theorem blocksFrom?_append (word passed rest : Text) :
    blocksFrom? word (passed ++ rest) (byteSize passed) =
      some (Piece.located (byteSize passed) (Block.scanFrom word 0 passed.getLast? rest).pieces,
        (Block.scanFrom word 0 passed.getLast? rest).unclosed) := by
  -- By what is left, not by the calls: each block that is found moves text into `passed`.
  induction size : rest.length using Nat.strong_induction_on generalizing passed rest with
  | _ size ih =>
    rw [blocksFrom?, headed?_append (endsOnBrace_opener word)]
    obtain ⟨missing, scanned⟩ | ⟨found, first, ⟨unclosed, scanned⟩ |
      ⟨body, source, after, closed, nonempty, rfl, scanned⟩⟩ :=
      Block.scanFrom_cases word passed.getLast? rest
    · rw [missing, scanned, located_kept]
      rfl
    · rw [first, scanned, located_kept]
      simp [unclosed]
    · rw [first, scanned, located_kept_append, Piece.located]
      have shorter : after.length < (found.before ++ source ++ after).length := by
        have positive := List.length_pos_iff.mpr nonempty
        simp only [List.length_append]
        omega
      have whole : passed ++ (found.before ++ source ++ after) =
          passed ++ (found.before ++ source) ++ after := (List.append_assoc ..).symm
      have later := ih after.length (size ▸ shorter) (passed ++ (found.before ++ source)) after rfl
      have stop : byteSize passed + byteSize found.before + byteSize source =
          byteSize (passed ++ (found.before ++ source)) := by
        simp only [byteSize_append, Nat.add_assoc]
      have forward : byteSize passed < byteSize (passed ++ (found.before ++ source)) := by
        have positive := byteSize_pos nonempty
        rw [← stop]
        omega
      have within : byteSize (passed ++ (found.before ++ source)) ≤
          byteSize (passed ++ (found.before ++ source ++ after)) := by
        rw [whole, byteSize_append _ after]
        omega
      rw [← whole, ← lastOf_getLast?] at later
      simp only [Option.map_some, closed, byteSize_sub whole, later, stop, Option.bind_eq_bind,
        Option.bind_some, Option.pure_def, inner_braced, byteSize_append passed found.before]
      rw [if_pos ⟨forward, within⟩]

theorem located_cases (pieces : List (Piece α)) (passed : Text) :
    (Piece.located (byteSize passed) pieces = [] ∧
      Piece.withoutFirst pieces = pieces.flatMap Piece.source) ∨
    ∃ before value source after later, pieces.flatMap Piece.source = before ++ source ++ after ∧
      Piece.withoutFirst pieces = before ++ after ∧
      Piece.located (byteSize passed) pieces = (value, ⟨byteSize (passed ++ before),
        byteSize (passed ++ before ++ source)⟩) :: later := by
  induction pieces generalizing passed with
  | nil => exact .inl ⟨rfl, rfl⟩
  | cons piece pieces ih =>
    cases piece with
    | found value source =>
      refine .inr ⟨[], value, source, pieces.flatMap Piece.source,
        Piece.located (byteSize (passed ++ source)) pieces, by simp [Piece.source], rfl, ?_⟩
      rw [Piece.located, List.append_nil, byteSize_append]
    | kept c =>
      have moved : byteSize passed + c.utf8Size = byteSize (passed ++ [c]) := by
        rw [byteSize_append]
        rfl
      rw [Piece.located, Piece.withoutFirst, moved, List.flatMap_cons, Piece.source]
      obtain ⟨missing, whole⟩ | ⟨before, value, source, after, later, whole, left, first⟩ :=
        ih (passed ++ [c])
      · exact .inl ⟨missing, by rw [whole]; rfl⟩
      · refine .inr ⟨c :: before, value, source, after, later, by simp [whole], by simp [left], ?_⟩
        simpa using first

def withoutSpan? (t : Text) : Option Span → Option Text
  | none => some t
  | some span => t.removeSpans? [span]

theorem withoutSpan?_first (pieces : List (Piece α)) :
    withoutSpan? (pieces.flatMap Piece.source) ((Piece.located 0 pieces).head?.map (·.2)) =
      some (Piece.withoutFirst pieces) := by
  obtain ⟨missing, whole⟩ | ⟨before, value, source, after, later, whole, left, first⟩ :=
    located_cases pieces []
  · rw [byteSize] at missing
    rw [missing, whole]
    rfl
  · rw [byteSize, List.nil_append] at first
    have front : slice? (before ++ source ++ after) ⟨0, byteSize before⟩ = some before := by
      have parts : before ++ source ++ after = [] ++ before ++ (source ++ after) := by simp
      exact slice?_eq_some parts
    simp only [first, whole, left, List.head?_cons, Option.map_some, withoutSpan?, removeSpans?,
      removeSpansFrom?, front, dropBytes?_append, Option.bind_eq_bind, Option.bind_some,
      Option.pure_def]

def cutSection? (keyword body : Text) : Option (Option (Text × Text)) := do
  match ← headed? (RecipeBody.sectionOpener keyword) body 0 with
  | some ((), head, some (block, stop)) =>
    let inside ← body.slice? ⟨head.stop, head.stop + byteSize (Brace.inner block)⟩
    let rest ← body.replace? ⟨head.start, stop⟩ []
    return some (inside, rest)
  | _ => return none

theorem cutSection?_eq (keyword body : Text) :
    cutSection? keyword body = some (RecipeBody.cutSection? keyword body) := by
  have located := headed?_append (endsOnBrace_sectionOpener keyword) [] body
  rw [List.nil_append, byteSize] at located
  rw [cutSection?, RecipeBody.cutSection?, located, Pattern.first?, List.getLast?_nil]
  cases first : (RecipeBody.sectionOpener keyword).firstFrom? none body with
  | none => rfl
  | some found =>
    cases closed : Brace.close? found.after with
    | none => simp [closed]
    | some parts =>
      obtain ⟨inside, after⟩ := parts
      obtain ⟨here, rfl, read⟩ := Pattern.firstFrom?_eq_some first
      obtain ⟨head, rfl⟩ := endsOnBrace_sectionOpener keyword _ _ _ _ read
      obtain ⟨parts, -⟩ := Brace.close?_eq_some_iff.mp closed
      generalize whole : found.before ++ (head ++ '{' :: found.after) = body
      have start : byteSize body - byteSize found.after =
          byteSize (found.before ++ head ++ ['{']) := byteSize_sub (by simp [← whole])
      have stop : byteSize body - byteSize after =
          byteSize (found.before ++ (head ++ '{' :: inside ++ ['}'])) :=
        byteSize_sub (by simp [← whole, parts])
      have behind : body = found.before ++ head ++ ['{'] ++ inside ++ '}' :: after := by
        simp [← whole, parts]
      have inner : body.slice? ⟨byteSize (found.before ++ head ++ ['{']),
          byteSize (found.before ++ head ++ ['{'] ++ inside)⟩ = some inside :=
        slice?_eq_some behind
      have rest : body.replace? ⟨byteSize found.before,
          byteSize (found.before ++ (head ++ '{' :: inside ++ ['}']))⟩ [] =
          some (found.before ++ [] ++ after) := replace?_eq_some [] (by simp [← whole, parts])
      simp only [Option.map_some, Option.bind_eq_bind, Option.bind_some, closed, start, stop,
        inner_braced, ← byteSize_append, inner, rest, Option.pure_def, List.nil_append,
        List.append_nil]

def takeFirst? (p : Pattern Text) (t : Text) : Option (Option Text × Text) := do
  match ← occurrence? p t 0 with
  | none => return (none, t)
  | some (value, span) => return (some value, ← t.replace? span [' '])

theorem takeFirst?_eq {p : Pattern Text} (advances : p.Advances) (t : Text) :
    takeFirst? p t = some (p.takeFirst [' '] t) := by
  have located := occurrence?_append p [] t
  rw [List.nil_append, byteSize, List.getLast?_nil] at located
  rw [takeFirst?, located, Pattern.takeFirst, Pattern.first?]
  cases first : p.firstFrom? none t with
  | none => rfl
  | some found =>
    obtain ⟨here, rfl, read⟩ := Pattern.firstFrom?_eq_some first
    obtain ⟨source, -, rfl⟩ := advances _ _ _ _ read
    have whole : found.before ++ (source ++ found.after) =
        found.before ++ source ++ found.after := (List.append_assoc ..).symm
    simp only [Option.map_some, Option.bind_eq_bind, Option.bind_some, byteSize_sub whole,
      replace?_eq_some [' '] whole, Option.pure_def, List.nil_append]

theorem advances_labelled (label : Text) (inRun : Char → Bool) :
    (EntryLine.labelled label inRun).Advances := by
  intro previous t run rest read
  obtain ⟨-, found, behind, -, rfl, taken⟩ := EntryLine.labelled_eq_some_iff.mp read
  obtain ⟨nonempty, -, -, split⟩ := run?_eq_some_iff.mp taken
  obtain ⟨gap, -, blanks⟩ := exists_gap behind
  rw [split] at blanks
  exact ⟨found ++ gap ++ run, by simp [nonempty], by simp [blanks]⟩

def lineMark : Pattern Unit := fun _ t => do
  let rest ← t.literal? ['/', '/']
  return ((), rest)

def uncommented? (line : Text) : Option Text := do
  match ← occurrence? lineMark line 0 with
  | none => return line
  | some (_, mark) => line.slice? ⟨0, mark.start⟩

theorem beforeLineComment_eq (previous : Option Char) (line : Text) :
    line.beforeLineComment = ((lineMark.firstFrom? previous line).map (·.before)).getD line := by
  fun_induction beforeLineComment line generalizing previous with
  | case1 => rfl
  | case2 t => simp [Pattern.firstFrom?, lineMark, literal?]
  | case3 c t notMark ih =>
    have read : lineMark previous (c :: t) = none := by
      rw [Option.eq_none_iff_forall_ne_some]
      rintro ⟨_, rest⟩ found
      simp only [lineMark, Option.bind_eq_bind, Option.bind_eq_some_iff, literal?_eq_some_iff] at found
      obtain ⟨rest, whole, -⟩ := found
      obtain ⟨rfl, rfl⟩ := List.cons.inj whole
      exact notMark rest rfl rfl
    rw [Pattern.firstFrom?, read, ih (some c)]
    cases lineMark.firstFrom? (some c) t <;> rfl

theorem uncommented?_eq (line : Text) : uncommented? line = some line.beforeLineComment := by
  have located := occurrence?_append lineMark [] line
  rw [List.nil_append, byteSize, List.getLast?_nil] at located
  rw [uncommented?, located, beforeLineComment_eq none]
  cases first : lineMark.firstFrom? none line with
  | none => rfl
  | some found =>
    obtain ⟨here, whole, -⟩ := Pattern.firstFrom?_eq_some first
    have parts : line = [] ++ found.before ++ here := whole
    exact slice?_eq_some parts

end CraftScript.Bytewise
