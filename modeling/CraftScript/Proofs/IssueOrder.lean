import CraftScript.Proofs.Canonical.Form
import CraftScript.Proofs.Concatenation
import CraftScript.Proofs.RecipeShape

/-! The order of issues. Lines that are of no kind are noted in the order in which they stand, as long
as the inputs of every recipe stand before its outputs; but a recipe that is left open is noted before
all of them, though it stands behind them. -/
namespace CraftScript

open Canonical (unlines)

namespace Text

def IsPart (part : Text) : Prop :=
  part ≠ [] ∧ '\n' ∉ part

/-- The parts of lines stand in the text one behind the other. -/
def InOrder : List Text → Text → Prop
  | [], _ => True
  | part :: parts, t =>
    IsPart part ∧ ∃ before after, t = before ++ (part ++ after) ∧ InOrder parts after

def placesFrom (part : Text) : (start : Nat) → Text → List Nat
  | start, [] => if part.isEmpty then [start] else []
  | start, c :: t =>
    (if part.isPrefixOf (c :: t) then [start] else []) ++ placesFrom part (start + 1) t

def places (part t : Text) : List Nat :=
  placesFrom part 0 t

theorem mem_placesFrom (part : Text) (start : Nat) (before after : Text) :
    start + before.length ∈ placesFrom part start (before ++ (part ++ after)) := by
  induction before generalizing start with
  | nil =>
    rw [List.nil_append, List.length_nil, Nat.add_zero]
    cases whole : part ++ after with
    | nil => simp [placesFrom, (List.append_eq_nil_iff.mp whole).1]
    | cons c t =>
      have first : part.isPrefixOf (c :: t) := by
        rw [List.isPrefixOf_iff_prefix, ← whole]
        exact List.prefix_append part after
      simp [placesFrom, first]
  | cons c before ih =>
    have later := ih (start + 1)
    rw [Nat.add_assoc, Nat.add_comm 1] at later
    rw [List.cons_append, placesFrom, List.length_cons]
    exact List.mem_append_right _ later

theorem places_le_of_inOrder {part part' t : Text} (order : InOrder [part, part'] t) {n n' : Nat}
    (once : places part t = [n]) (once' : places part' t = [n']) : n ≤ n' := by
  obtain ⟨-, before, _, rfl, -, between, after, rfl, -⟩ := order
  have here := mem_placesFrom part 0 before (between ++ (part' ++ after))
  have here' := mem_placesFrom part' 0 (before ++ (part ++ between)) after
  rw [← places, once, List.mem_singleton] at here
  have split : before ++ (part ++ (between ++ (part' ++ after))) =
      before ++ (part ++ between) ++ (part' ++ after) := by simp
  rw [split] at once'
  rw [← places, once', List.mem_singleton, List.length_append] at here'
  omega

theorem inOrder_prepend {parts : List Text} {t : Text} (front : Text) (order : InOrder parts t) :
    InOrder parts (front ++ t) := by
  cases parts with
  | nil => trivial
  | cons part parts =>
    obtain ⟨isPart, before, after, rfl, later⟩ := order
    exact ⟨isPart, front ++ before, after, by simp, later⟩

theorem inOrder_append {parts parts' : List Text} {t t' : Text} (order : InOrder parts t)
    (order' : InOrder parts' t') : InOrder (parts ++ parts') (t ++ t') := by
  induction parts generalizing t with
  | nil => exact inOrder_prepend t order'
  | cons part parts ih =>
    obtain ⟨isPart, before, after, rfl, later⟩ := order
    exact ⟨isPart, before, after ++ t', by simp, ih later⟩

theorem inOrder_of_isInfix {parts : List Text} {t t' : Text} (order : InOrder parts t)
    (inside : t <:+: t') : InOrder parts t' := by
  obtain ⟨front, back, rfl⟩ := inside
  have longer := inOrder_append order (show InOrder [] back from trivial)
  rw [List.append_nil] at longer
  rw [List.append_assoc]
  exact inOrder_prepend front longer

theorem inOrder_of_sublist {parts parts' : List Text} {t : Text} (order : InOrder parts' t)
    (fewer : parts.Sublist parts') : InOrder parts t := by
  induction fewer generalizing t with
  | slnil => trivial
  | cons part _ ih =>
    obtain ⟨-, before, after, rfl, later⟩ := order
    rw [← List.append_assoc]
    exact inOrder_prepend _ (ih later)
  | cons_cons part _ ih =>
    obtain ⟨isPart, before, after, rfl, later⟩ := order
    exact ⟨isPart, before, after, rfl, ih later⟩

theorem inOrder_singleton {part t : Text} (isPart : IsPart part) (inside : part <:+: t) :
    InOrder [part] t := by
  obtain ⟨before, after, rfl⟩ := inside
  exact ⟨isPart, before, after, by simp, trivial⟩

theorem occurs_iff_isInfix {part t : Text} : occurs part t ↔ part <:+: t := by
  constructor
  · intro found
    induction t with
    | nil =>
      rw [occurs, List.isEmpty_iff] at found
      subst found
      exact List.nil_infix
    | cons c t ih =>
      rw [occurs, Bool.or_eq_true, List.isPrefixOf_iff_prefix] at found
      rcases found with here | later
      · exact here.isInfix
      · exact (ih later).trans (List.suffix_cons c t).isInfix
  · rintro ⟨before, after, rfl⟩
    rw [List.append_assoc]
    exact occurs_of_split

def Carries (s t : Text) : Prop :=
  ∀ begun parts, '\n' ∉ begun → (∃ rest, s = begun ++ rest ∧ InOrder parts rest) →
    ∃ rest, t = begun ++ rest ∧ InOrder parts rest

theorem carries_nil : Carries [] [] :=
  fun _ _ _ order => order

theorem Carries.inOrder {s t : Text} (carries : Carries s t) {parts : List Text}
    (order : InOrder parts s) : InOrder parts t := by
  obtain ⟨_, rfl, order'⟩ := carries [] parts (by simp) ⟨s, rfl, order⟩
  exact order'

theorem carries_cons {s t : Text} (carries : Carries s t) (c : Char) : Carries (c :: s) (c :: t) := by
  rintro begun parts single ⟨rest, split, order⟩
  cases begun with
  | cons d begun =>
    obtain ⟨rfl, rfl⟩ := List.cons.inj split
    obtain ⟨rest', rfl, order'⟩ :=
      carries begun parts (fun inside => single (by simp [inside])) ⟨rest, rfl, order⟩
    exact ⟨rest', rfl, order'⟩
  | nil =>
    rw [List.nil_append] at split
    subst split
    refine ⟨c :: t, rfl, ?_⟩
    cases parts with
    | nil => trivial
    | cons part parts =>
      obtain ⟨isPart, before, after, split, later⟩ := order
      cases before with
      | cons d before =>
        obtain ⟨rfl, rfl⟩ := List.cons.inj split
        exact inOrder_prepend [c] (carries.inOrder ⟨isPart, before, after, rfl, later⟩)
      | nil =>
        -- The part begins here, so that the rest of the text begins within it.
        obtain ⟨d, more, rfl⟩ := List.exists_cons_of_ne_nil isPart.1
        obtain ⟨rfl, rfl⟩ := List.cons.inj split
        obtain ⟨rest', rfl, order'⟩ := carries more parts
          (fun inside => isPart.2 (by simp [inside])) ⟨after, rfl, later⟩
        exact ⟨isPart, [], rest', rfl, order'⟩

theorem carries_newline {s t : Text} (carries : Carries s t) (between : Text) :
    Carries ('\n' :: s) (between ++ t) := by
  rintro begun parts single ⟨rest, split, order⟩
  cases begun with
  | cons d begun =>
    obtain ⟨rfl, -⟩ := List.cons.inj split
    simp at single
  | nil =>
    rw [List.nil_append] at split
    subst split
    refine ⟨between ++ t, rfl, inOrder_prepend between ?_⟩
    apply carries.inOrder
    cases parts with
    | nil => trivial
    | cons part parts =>
      obtain ⟨isPart, before, after, split, later⟩ := order
      cases before with
      | cons d before => exact ⟨isPart, before, after, (List.cons.inj split).2, later⟩
      | nil =>
        obtain ⟨d, more, rfl⟩ := List.exists_cons_of_ne_nil isPart.1
        obtain ⟨rfl, -⟩ := List.cons.inj split
        exact absurd (by simp) isPart.2

theorem eq_nil_of_lines {t : Text} (empty : lines t = []) : t = [] := by
  fun_cases lines t with
  | case1 => rfl
  | case2 | case3 => simp [lines] at empty
  | case4 c t notNewline notReturn last | case5 c t notNewline notReturn line rest more =>
    rw [lines] at empty
    · split at empty <;> simp at empty
    · exact notNewline
    · exact notReturn

theorem carries_lines (t : Text) : Carries (unlines (lines t)) t := by
  fun_induction lines t with
  | case1 => exact carries_nil
  | case2 t ih => exact carries_newline ih ['\n']
  | case3 t ih => exact carries_newline ih ['\r', '\n']
  | case4 c t notNewline notReturn empty ih =>
    obtain rfl := eq_nil_of_lines empty
    exact carries_cons (carries_newline carries_nil []) c
  | case5 c t notNewline notReturn line rest more ih =>
    rw [more] at ih
    exact carries_cons ih c

/-- A part of the lines that crosses no line break is a part of the text. -/
theorem isInfix_of_unlines {t part : Text} (isPart : IsPart part)
    (inside : part <:+: unlines (lines t)) : part <:+: t := by
  obtain ⟨-, before, after, whole, -⟩ := (carries_lines t).inOrder (inOrder_singleton isPart inside)
  exact ⟨before, after, by rw [whole, List.append_assoc]⟩

theorem newline_not_mem_lines {t line : Text} (member : line ∈ lines t) : '\n' ∉ line := by
  fun_induction lines t generalizing line with
  | case1 => simp at member
  | case2 t ih | case3 t ih =>
    rcases List.mem_cons.mp member with rfl | later
    · simp
    · exact ih later
  | case4 c t notNewline notReturn empty ih =>
    rw [List.mem_singleton.mp member, List.mem_singleton]
    exact fun same => notNewline same.symm
  | case5 c t notNewline notReturn first rest more ih =>
    rcases List.mem_cons.mp member with rfl | later
    · rw [List.mem_cons, not_or]
      exact ⟨fun same => notNewline same.symm, ih (by simp [more])⟩
    · exact ih (by simp [more, later])

end Text

open Text

def Issue.line? : Issue → Option Text
  | .unrecognizedLine line => some line.toList
  | _ => none

namespace Section

theorem isInfix_cleanLine (line : Text) : cleanLine line <:+: line := by
  have comment := (isPrefix_beforeLineComment line).isInfix
  have trimmed := isInfix_trimWhile isBlank line.beforeLineComment
  have commas := (isPrefix_dropEndWhile (· == ',') (trim line.beforeLineComment)).isInfix
  exact (isPrefix_dropEndWhile isBlank _).isInfix.trans (commas.trans (trimmed.trans comment))

theorem inOrder_contentOf {lines : List Text} (single : ∀ line ∈ lines, '\n' ∉ line) :
    InOrder (lines.flatMap contentOf) (unlines lines) := by
  induction lines with
  | nil => trivial
  | cons line lines ih =>
    have later := ih fun line member => single line (by simp [member])
    have clean := isInfix_cleanLine line
    have one : InOrder (contentOf line) (line ++ ['\n']) := by
      rw [contentOf]
      by_cases empty : cleanLine line = []
      · simp [empty, InOrder]
      · have isPart : IsPart (cleanLine line) :=
          ⟨empty, fun newline => single line (by simp) (clean.subset newline)⟩
        rw [List.filter_singleton]
        simpa [empty] using
          inOrder_singleton isPart (clean.trans (List.prefix_append line ['\n']).isInfix)
    exact inOrder_append one later

theorem inOrder_contentLines (t : Text) : InOrder (contentLines t) t := by
  rw [contentLines_eq_flatMap]
  exact (carries_lines t).inOrder (inOrder_contentOf fun _ => newline_not_mem_lines)

theorem line?_classify (settings : Settings) (line : Text) :
    ((classify settings line).issues.filterMap Issue.line?).Sublist [line] := by
  unfold classify
  split
  · exact List.nil_sublist _
  · simp [Issue.line?]

theorem inOrder_read (settings : Settings) (t : Text) :
    InOrder ((read settings t).issues.filterMap Issue.line?) t := by
  apply inOrder_of_sublist (inOrder_contentLines t)
  rw [read, WithIssues.issues_bind, WithIssues.issues_pure, List.append_nil, WithIssues.issues_mapM]
  induction contentLines t with
  | nil => exact List.nil_sublist _
  | cons line lines ih =>
    rw [List.flatMap_cons, List.filterMap_append]
    exact (line?_classify settings line).append ih

end Section

namespace RecipeBody

/-- The sections of the body stand in the order in which they are read: nothing is cut out of it as a
mapper, and no head of the outputs stands before the inputs. -/
def ordered (body : Text) : Bool :=
  (takeMappers body).2 == body &&
    ((sectionOpener "inputs".toList).first? body).all fun found =>
      ((sectionOpener "outputs".toList).first? found.before).isNone

theorem cutSection?_eq_some {keyword body inside rest : Text}
    (cut : cutSection? keyword body = some (inside, rest)) :
    ∃ found gap after, (sectionOpener keyword).first? body = some found ∧
      beginsWord (lastOf none found.before) ∧ (∀ c ∈ gap, isBlank c) ∧
      body = found.before ++ (keyword ++ gap ++ '{' :: (inside ++ '}' :: after)) ∧
      rest = found.before ++ after := by
  simp only [cutSection?, Option.bind_eq_bind, Option.bind_eq_some_iff, Prod.exists,
    Option.pure_def, Option.some.injEq, Prod.mk.injEq] at cut
  obtain ⟨found, first, _, after, closed, rfl, rfl⟩ := cut
  obtain ⟨here, split, read⟩ := Pattern.firstFrom?_eq_some first
  obtain ⟨begins, gap, blanks, rfl⟩ := sectionOpener_eq_some_iff.mp read
  rw [Brace.eq_append_of_closeFrom? closed] at split
  exact ⟨found, gap, after, first, begins, blanks, split, rfl⟩

theorem inOrder_takeSection (settings : Settings) (recipe : String) {keyword : String}
    {before : Text} (absent : (sectionOpener keyword.toList).first? before = none) (after : Text) :
    InOrder ((takeSection settings recipe keyword (before ++ after)).issues.filterMap Issue.line?)
      after := by
  unfold takeSection
  split
  next inside rest cut =>
    have noted := Section.inOrder_read settings inside
    rw [WithIssues.issues_bind, WithIssues.issues_pure, List.append_nil]
    apply inOrder_of_isInfix noted
    obtain ⟨found, gap, behind, -, begins, blanks, split, -⟩ := cutSection?_eq_some cut
    have parts : before ++ after =
        (found.before ++ (keyword.toList ++ gap ++ ['{'])) ++ (inside ++ '}' :: behind) := by
      simp [split]
    rcases List.append_eq_append_iff.mp parts with ⟨between, -, late⟩ | ⟨between, early, -⟩
    · exact ⟨between, '}' :: behind, by simp [late]⟩
    · -- The head would stand before, where none is.
      have silent := Pattern.silent_of_firstFrom? absent
      obtain ⟨c, back, head⟩ : ∃ c back, keyword.toList ++ gap ++ '{' :: between = c :: back :=
        List.exists_cons_of_ne_nil (by simp)
      have read := sectionOpener_eq_some_iff.mpr ⟨begins, gap, blanks, head.symm⟩
      have nothing := silent found.before c back (by rw [early, ← head]; simp)
      rw [List.append_nil, read] at nothing
      contradiction
  next missing => trivial

theorem inOrder_read (settings : Settings) (name : String) {body : Text} (sorted : ordered body) :
    InOrder ((read settings name body).issues.filterMap Issue.line?) body := by
  rw [ordered, Bool.and_eq_true, beq_iff_eq] at sorted
  obtain ⟨unmapped, inputsFirst⟩ := sorted
  have mapped : takeMappers body = ((takeMappers body).1, body) := Prod.ext rfl unmapped
  rw [(read_steps mapped rfl rfl).2, List.filterMap_append]
  cases cut : cutSection? "inputs".toList body with
  | none =>
    have missing : takeSection settings name "inputs" body =
        ⟨({}, body), [.missingSection name "inputs"]⟩ := by
      rw [takeSection, cut]
      rfl
    rw [missing]
    exact @inOrder_takeSection settings name "outputs" [] rfl body
  | some found =>
    obtain ⟨inside, rest⟩ := found
    obtain ⟨found, gap, after, first, -, -, split, rfl⟩ := cutSection?_eq_some cut
    have taken : takeSection settings name "inputs" body =
        ⟨((Section.read settings inside).value, found.before ++ after),
          (Section.read settings inside).issues ++ []⟩ := by
      rw [takeSection, cut]
      rfl
    have absent : (sectionOpener "outputs".toList).first? found.before = none := by
      rw [first] at inputsFirst
      simpa using inputsFirst
    have inputs := Section.inOrder_read settings inside
    have outputs := inOrder_takeSection settings name absent after
    rw [taken, split, List.append_nil]
    have both := inOrder_append inputs (inOrder_prepend ['}'] outputs)
    exact inOrder_of_isInfix both ⟨found.before ++ ("inputs".toList ++ gap ++ ['{']), [], by simp⟩

end RecipeBody

namespace RecipeSource

theorem body?_isInfix {block : RecipeSource} {body : Text} (inside : block.body? = some body) :
    body <:+: block.text := by
  obtain ⟨⟨_, after⟩, found, rfl⟩ := Option.map_eq_some_iff.mp inside
  unfold Brace.firstBlock? at found
  split at found
  next => contradiction
  next first tail dropped =>
    have whole := List.dropWhile_suffix (l := block.text) (· ≠ '{')
    rw [dropped, Brace.eq_append_of_closeFrom? found] at whole
    exact List.IsInfix.trans ⟨[first], '}' :: after, by simp⟩ whole.isInfix

def held (state : Option Gathering) : List Text :=
  state.elim [] (·.lines)

def Gathering.Headed (gathering : Gathering) : Prop :=
  ∃ head more, gathering.lines = head :: more ∧ header? head = some gathering.name

theorem Gathering.Headed.push {gathering : Gathering} (headed : gathering.Headed) (line : Text) :
    (gathering.push line).Headed := by
  obtain ⟨head, more, first, named⟩ := headed
  exact ⟨head, more ++ [line], by simp [Gathering.push, first], named⟩

/-- One line does nothing outside of recipes, or completes a recipe, or is held. -/
theorem step_cases {state : Option Gathering} (headed : ∀ gathering ∈ state, gathering.Headed)
    (line : Text) :
    held state = [] ∧ completed state line = [] ∧ advance state line = none ∨
      ∃ grown : Gathering, grown.lines = held state ++ [line] ∧ grown.Headed ∧
        (completed state line = [grown.finish] ∧ advance state line = none ∨
          completed state line = [] ∧ advance state line = some grown) := by
  rw [completed, advance]
  cases begun : state <|> (header? line).map fun name => { name := name } with
  | none =>
    cases state with
    | none => exact .inl ⟨rfl, rfl, rfl⟩
    | some gathering => simp at begun
  | some current =>
    refine .inr ⟨current.push line, ?_, ?_, ?_⟩
    · cases state with
      | some gathering => simp [held, Gathering.push, ← Option.some.inj begun]
      | none =>
        obtain ⟨name, -, rfl⟩ := Option.map_eq_some_iff.mp begun
        rfl
    · cases state with
      | some gathering =>
        obtain rfl : gathering = current := by simpa using begun
        exact (headed gathering rfl).push line
      | none =>
        obtain ⟨name, named, rfl⟩ := Option.map_eq_some_iff.mp begun
        exact ⟨line, [], rfl, named⟩
    · by_cases complete : (current.push line).isComplete
      · exact .inl (by simp [complete])
      · exact .inr (by simp [complete])

theorem signless_of_isInfix {t t' : Text} (signless : occurs ['/', '*'] t' = false)
    (inside : t <:+: t') : occurs ['/', '*'] t = false := by
  rw [Bool.eq_false_iff] at signless ⊢
  intro found
  exact signless (occurs_iff_isInfix.mpr ((occurs_iff_isInfix.mp found).trans inside))

/-- What the recipes note stands in order in the lines, and behind it the head of the recipe that is
left open. -/
theorem inOrder_gather (noted : RecipeSource → List Text) {state : Option Gathering}
    {lines : List Text} (headed : ∀ gathering ∈ state, gathering.Headed)
    (single : ∀ line ∈ held state ++ lines, '\n' ∉ line)
    (signless : occurs ['/', '*'] (unlines (held state ++ lines)) = false)
    (each : ∀ block ∈ (gather state lines).1, InOrder (noted block) block.text) :
    ∃ head : Option Text, (∀ line ∈ head, line ∈ held state ++ lines) ∧
      (gather state lines).2 = head.bind header? ∧
      InOrder ((gather state lines).1.flatMap noted ++ head.toList)
        (unlines (held state ++ lines)) := by
  -- The lines held belong to the text, so that it does not change while a recipe is gathered.
  induction lines generalizing state with
  | nil =>
    cases state with
    | none => exact ⟨none, by simp, rfl, trivial⟩
    | some gathering =>
      obtain ⟨head, more, first, named⟩ := headed gathering rfl
      have member : head ∈ held (some gathering) ++ [] := by simp [held, first]
      have nonempty : head ≠ [] := by
        rintro rfl
        exact absurd named (by simp [header?, dropBlanks, folded?])
      refine ⟨some head, by simpa using member, named.symm, ?_⟩
      refine inOrder_singleton ⟨nonempty, single head member⟩ ⟨[], '\n' :: unlines more, ?_⟩
      simp [held, first, unlines]
  | cons line lines ih =>
    rw [gather_cons] at each ⊢
    rcases step_cases headed line with ⟨idle, done, next⟩ | ⟨grown, lined, headed', step⟩
    · rw [done, next, List.nil_append] at each ⊢
      rw [idle, List.nil_append] at signless single ⊢
      have behind : unlines lines <:+: unlines (line :: lines) :=
        ⟨line ++ ['\n'], [], by simp [unlines]⟩
      obtain ⟨head, member, origin, order⟩ :=
        @ih none (by simp) (fun line inside => single line (List.mem_cons_of_mem _ inside))
          (signless_of_isInfix signless behind) each
      refine ⟨head, fun line inside => ?_, origin, inOrder_of_isInfix order behind⟩
      exact List.mem_cons_of_mem _ (member line inside)
    · have whole : held state ++ line :: lines = grown.lines ++ lines := by simp [lined]
      rw [whole] at signless single ⊢
      rcases step with ⟨done, next⟩ | ⟨done, next⟩
      · rw [done, next] at each ⊢
        have split : unlines (grown.lines ++ lines) = grown.text ++ unlines lines := by
          simp [unlines, Gathering.text]
        rw [split] at signless ⊢
        have own := signless_of_isInfix signless (List.prefix_append _ _).isInfix
        have first := each grown.finish (by simp)
        rw [Gathering.finish, Comment.strip_signless own] at first
        obtain ⟨head, member, origin, order⟩ := @ih none (by simp)
          (fun line inside => single line (List.mem_append_right _ inside))
          (signless_of_isInfix signless (List.suffix_append _ _).isInfix)
          fun block later => each block (by simp [later])
        refine ⟨head, fun line inside => ?_, origin, ?_⟩
        · exact List.mem_append_right _ (member line inside)
        · rw [List.singleton_append, List.flatMap_cons, List.append_assoc, Gathering.finish,
            Comment.strip_signless own]
          exact inOrder_append first order
      · rw [done, next, List.nil_append] at each ⊢
        exact @ih (some grown) (by simpa using headed') single signless each

end RecipeSource

theorem sublist_pair {α : Type} {a b : α} {xs : List α} (first : a ∈ xs) (second : b ∈ xs)
    (different : a ≠ b) : [a, b].Sublist xs ∨ [b, a].Sublist xs := by
  obtain ⟨front, back, rfl⟩ := List.append_of_mem first
  rcases List.mem_append.mp second with early | late
  · have order := (List.singleton_sublist.mpr early).append
      (List.singleton_sublist.mpr (List.mem_cons_self : a ∈ a :: back))
    exact .inr order
  · have behind := (List.mem_cons.mp late).resolve_left different.symm
    have order := (List.singleton_sublist.mpr behind).cons_cons a
    exact .inl (order.trans (List.sublist_append_right front _))

namespace Script

open RecipeSource

theorem inOrder_readBlock (settings : Settings) {block : RecipeSource}
    (sorted : block.body?.all RecipeBody.ordered) :
    InOrder ((readBlock settings block).issues.filterMap Issue.line?) block.text := by
  unfold readBlock
  cases inside : block.body? with
  | none => trivial
  | some body =>
    rw [inside, Option.all_some] at sorted
    have order := RecipeBody.inOrder_read settings (String.ofList block.name) sorted
    have noted : ((some body).mapM (RecipeBody.read settings (String.ofList block.name))).issues =
        (RecipeBody.read settings (String.ofList block.name) body).issues := by
      simp
    rw [noted]
    exact inOrder_of_isInfix order (body?_isInfix inside)

theorem inOrder_noted (settings : Settings) {text : Text}
    (signless : occurs ['/', '*'] text = false)
    (sorted : ∀ block ∈ (RecipeSource.all text).value, block.body?.all RecipeBody.ordered) :
    ∃ head : Option Text, (∀ line ∈ head, line ∈ text.lines) ∧
      (gather none text.lines).2 = head.bind header? ∧
      InOrder ((((RecipeSource.all text).value.mapM (readBlock settings)).issues.filterMap
        Issue.line?) ++ head.toList) text := by
  have carries := carries_lines text
  have signless' : occurs ['/', '*'] (unlines text.lines) = false := by
    rw [Bool.eq_false_iff, ne_eq, occurs_iff_isInfix] at signless ⊢
    exact fun found => signless (isInfix_of_unlines ⟨by simp, by decide⟩ found)
  obtain ⟨head, member, origin, order⟩ :=
    @inOrder_gather (fun block => (readBlock settings block).issues.filterMap Issue.line?) none
      text.lines (by simp) (fun _ => newline_not_mem_lines) signless'
      fun block inside => inOrder_readBlock settings (sorted block inside)
  refine ⟨head, member, origin, ?_⟩
  rw [WithIssues.issues_mapM, List.filterMap_flatMap]
  exact carries.inOrder order

def openIssues (source : Text) : List Issue :=
  commentIssues source ++ (RecipeSource.all (Comment.strip source).text).issues

theorem issues_report_of_absent (settings : Settings) {source : Text}
    (absent : occurs "module".toList (Comment.strip source).text = false) :
    (report settings source).issues = openIssues source ++
      ((RecipeSource.all (Comment.strip source).text).value.mapM (readBlock settings)).issues := by
  rw [issues_report, issues_recipes, Construction.all_of_absent settings absent,
    WithIssues.issues_pure, List.append_nil, openIssues, List.append_assoc]

theorem line?_openIssues {source : Text} {issue : Issue} (inside : issue ∈ openIssues source) :
    issue.line? = none := by
  rcases List.mem_append.mp inside with comment | block
  · obtain ⟨offset, -, rfl⟩ := List.mem_map.mp comment
    rfl
  · obtain ⟨name, -, rfl⟩ := List.mem_map.mp block
    rfl

theorem open_of_mem {source : Text} {name : String}
    (inside : .unclosedBlock .craftRecipe name ∈ openIssues source) :
    (gather none (Comment.strip source).text.lines).2 = some name.toList := by
  rcases List.mem_append.mp inside with comment | block
  · obtain ⟨offset, -, same⟩ := List.mem_map.mp comment
    contradiction
  · obtain ⟨found, here, same⟩ := List.mem_map.mp block
    obtain ⟨-, rfl⟩ := Issue.unclosedBlock.inj same
    rw [String.toList_ofList]
    exact Option.mem_toList.mp here

/-- Without modules and with the inputs of each recipe before its outputs, two lines that are noted
have their issues in the order of their places. The issue of a recipe that is left open stands before
those of all lines, and its head behind all of them. -/
theorem order_of_issues (settings : Settings) {source : Text}
    (signless : occurs ['/', '*'] (Comment.strip source).text = false)
    (moduleless : occurs "module".toList (Comment.strip source).text = false)
    (sorted : ∀ block ∈ (RecipeSource.all (Comment.strip source).text).value,
      block.body?.all RecipeBody.ordered) :
    (∀ line line' n n', .unrecognizedLine line ∈ (report settings source).issues →
      .unrecognizedLine line' ∈ (report settings source).issues →
      places line.toList (Comment.strip source).text = [n] →
      places line'.toList (Comment.strip source).text = [n'] → n < n' →
      [.unrecognizedLine line, .unrecognizedLine line'].Sublist (report settings source).issues) ∧
    ∀ name, .unclosedBlock .craftRecipe name ∈ (report settings source).issues →
      ∃ head ∈ (Comment.strip source).text.lines, header? head = some name.toList ∧
        ∀ line, .unrecognizedLine line ∈ (report settings source).issues →
          InOrder [line.toList, head] (Comment.strip source).text ∧
          [.unclosedBlock .craftRecipe name, .unrecognizedLine line].Sublist
            (report settings source).issues := by
  obtain ⟨head, member, origin, order⟩ := inOrder_noted settings signless sorted
  have issues := issues_report_of_absent settings moduleless
  have early : (openIssues source).filterMap Issue.line? = [] :=
    List.filterMap_eq_nil_iff.mpr fun _ => line?_openIssues
  constructor
  · intro line line' n n' noted noted' once once' before
    have different : Issue.unrecognizedLine line ≠ .unrecognizedLine line' := by
      intro same
      rw [Issue.unrecognizedLine.inj same, once'] at once
      simp at once
      omega
    -- Were the issues the other way round, the places would be as well.
    refine (sublist_pair noted noted' different).resolve_right fun reversed => ?_
    have lines := reversed.filterMap Issue.line?
    rw [issues, List.filterMap_append, early, List.nil_append] at lines
    have reversed' := inOrder_of_sublist order (lines.trans (List.sublist_append_left _ _))
    have late := places_le_of_inOrder reversed' once' once
    omega
  · intro name noted
    have kept : WithIssues.KeepsRecipes
        ((RecipeSource.all (Comment.strip source).text).value.mapM (readBlock settings)) :=
      WithIssues.keepsRecipes_mapM fun block _ => keepsRecipes_readBlock settings block
    rw [issues] at noted ⊢
    have unclosed := (List.mem_append.mp noted).resolve_right fun late => by
      simpa [Issue.unclosedRecipe?] using kept _ late
    rw [open_of_mem unclosed] at origin
    obtain ⟨line, rfl, named⟩ := Option.bind_eq_some_iff.mp origin.symm
    refine ⟨line, member line rfl, named, fun other noted => ?_⟩
    have late := (List.mem_append.mp noted).resolve_left fun early => by
      simpa [Issue.line?] using line?_openIssues early
    have known := List.mem_filterMap.mpr ⟨_, late, (rfl : Issue.line? _ = some other.toList)⟩
    constructor
    · exact inOrder_of_sublist order ((List.singleton_sublist.mpr known).append_right [line])
    · exact (List.singleton_sublist.mpr unclosed).append (List.singleton_sublist.mpr late)

/-- Two lines that are noted, with a comment between them, and a recipe that is left open behind
them. -/
theorem order_of_issues_open :
    let source := "craftRecipe A \x7b\n inputs \x7b\nodd one\n\x7d /* \x7d */\n outputs \x7b\r\nodd two\n\x7d
\x7d\ncraftRecipe B\n\x7b".toList
    let text := (Comment.strip source).text
    occurs ['/', '*'] text = false ∧ occurs "module".toList text = false ∧
      (∀ block ∈ (RecipeSource.all text).value, block.body?.all RecipeBody.ordered) ∧
      [.unrecognizedLine "odd one", .unrecognizedLine "odd two"].Sublist (report {} source).issues ∧
      ∃ head ∈ text.lines, header? head = some "B".toList ∧
        InOrder ["odd two".toList, head] text ∧
        [.unclosedBlock .craftRecipe "B", .unrecognizedLine "odd two"].Sublist
          (report {} source).issues := by
  intro source text
  have signless : occurs ['/', '*'] text = false := by decide +kernel
  have moduleless : occurs "module".toList text = false := by decide +kernel
  have sorted : ∀ block ∈ (RecipeSource.all text).value, block.body?.all RecipeBody.ordered := by
    decide +kernel
  have one : .unrecognizedLine "odd one" ∈ (report {} source).issues := by decide +kernel
  have two : .unrecognizedLine "odd two" ∈ (report {} source).issues := by decide +kernel
  have left : .unclosedBlock .craftRecipe "B" ∈ (report {} source).issues := by decide +kernel
  obtain ⟨lines, heads⟩ := order_of_issues {} signless moduleless sorted
  refine ⟨signless, moduleless, sorted, ?_, ?_⟩
  · exact lines _ _ 26 49 one two (by decide +kernel) (by decide +kernel) (by decide)
  · obtain ⟨head, member, named, each⟩ := heads "B" left
    exact ⟨head, member, named, each "odd two" two⟩

/-- The outputs stand before the inputs, and the recipe that is left open behind both; in the issues it
is the other way round. -/
theorem issues_out_of_order :
    let source := "craftRecipe A \x7b\noutputs \x7b\nfoo\n\x7d\ninputs \x7b\nbar\n\x7d\n\x7d
craftRecipe B \x7b".toList
    places "foo".toList source = [26] ∧ places "bar".toList source = [41] ∧
      places "craftRecipe B \x7b".toList source = [49] ∧
      (report {} source).issues =
        [.unclosedBlock .craftRecipe "B", .unrecognizedLine "bar", .unrecognizedLine "foo"] := by
  decide +kernel

end Script

end CraftScript
