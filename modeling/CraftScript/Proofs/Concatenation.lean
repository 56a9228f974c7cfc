import CraftScript.Proofs.Heads
import CraftScript.Proofs.Lines
import CraftScript.Proofs.RecipeHeads

/-! Texts read one behind the other. A text whose comments and recipes are all closed does not touch
what follows on a new line: comments, lines and recipes of the two are those of each alone. -/
namespace CraftScript

open Text

namespace Comment

def isSign (c : Char) : Bool :=
  c == '/' || c == '*'

theorem text_stripFrom (depth opened offset opened' offset' : Nat) (t : Text) :
    (stripFrom depth opened offset t).text = (stripFrom depth opened' offset' t).text := by
  fun_induction stripFrom depth opened offset t generalizing opened' offset' with
  | case1 opened offset => rfl
  | case2 depth opened offset => rfl
  | case3 opened offset t ih => rw [stripFrom, ih offset' (offset' + 2)]
  | case4 depth opened offset t ih => rw [stripFrom, ih opened' (offset' + 2)]
  | case5 depth opened offset t ih => rw [stripFrom, ih opened' (offset' + 2)]
  | case6 opened offset c t notOpen rest ih =>
    rw [stripFrom]
    · exact congrArg (c :: ·) (ih _ _)
    · exact notOpen
  | case7 depth opened offset c t notOpen notClose ih =>
    rw [stripFrom, ih opened' (offset' + c.utf8Size)]
    · exact notOpen
    · exact notClose

/-- Stripping goes on behind a text at the depth that the text has left. -/
theorem text_stripFrom_append (depth opened offset : Nat) (t : Text) :
    ∃ last, ((stripFrom depth opened offset t).unclosedAt = none → last = 0) ∧
      ∀ rest, Stops isSign rest →
        (stripFrom depth opened offset (t ++ rest)).text =
          (stripFrom depth opened offset t).text ++ (stripFrom last 0 0 rest).text := by
  fun_induction stripFrom depth opened offset t with
  | case1 opened offset => exact ⟨0, fun _ => rfl, fun rest _ => text_stripFrom ..⟩
  | case2 offset depth opened => exact ⟨depth + 1, by simp, fun rest _ => text_stripFrom ..⟩
  | case3 opened offset t ih => simpa [stripFrom] using ih
  | case4 depth opened offset t ih => simpa [stripFrom] using ih
  | case5 depth opened offset t ih => simpa [stripFrom] using ih
  | case6 opened offset c t notOpen tail ih =>
    obtain ⟨last, closed, later⟩ := ih
    refine ⟨last, closed, fun rest apart => ?_⟩
    rw [List.cons_append, stripFrom]
    · exact congrArg (c :: ·) (later rest apart)
    · intro tail slash star
      obtain ⟨inner, same, -⟩ := exists_cons_of_append (by decide) apart star
      exact notOpen inner slash same
  | case7 depth opened offset c t notOpen notClose ih =>
    obtain ⟨last, closed, later⟩ := ih
    refine ⟨last, closed, fun rest apart => ?_⟩
    rw [List.cons_append, stripFrom]
    · exact later rest apart
    · intro tail slash star
      obtain ⟨inner, same, -⟩ := exists_cons_of_append (by decide) apart star
      exact notOpen inner slash same
    · intro tail star slash
      obtain ⟨inner, same, -⟩ := exists_cons_of_append (by decide) apart slash
      exact notClose inner star same

theorem text_strip_newline {a : Text} (closed : (strip a).unclosedAt = none) (b : Text) :
    (strip (a ++ '\n' :: b)).text = (strip a).text ++ '\n' :: (strip b).text := by
  obtain ⟨last, level, later⟩ := text_stripFrom_append 0 0 0 a
  have newline : (stripFrom 0 0 0 ('\n' :: b)).text = '\n' :: (strip b).text := by
    rw [stripFrom]
    · exact congrArg ('\n' :: ·) (text_stripFrom ..)
    · simp
  rw [strip, later _ (stops_cons (by decide) _), level closed, newline]
  rfl

theorem mem_text_stripFrom {depth opened offset : Nat} {t : Text} {c : Char}
    (inside : c ∈ (stripFrom depth opened offset t).text) : c ∈ t := by
  fun_induction stripFrom depth opened offset t with
  | case1 | case2 => simp at inside
  | case3 _ _ _ ih | case4 _ _ _ _ ih | case5 _ _ _ _ ih => simp [ih inside]
  | case6 _ _ d t _ rest ih =>
    rcases List.mem_cons.mp inside with rfl | later
    · simp
    · simp [ih later]
  | case7 _ _ _ _ _ _ _ ih => simp [ih inside]

theorem stripFrom_signless {t : Text} (absent : occurs ['/', '*'] t = false)
    (opened offset : Nat) : stripFrom 0 opened offset t = ⟨t, none⟩ := by
  induction t generalizing offset with
  | nil => rfl
  | cons c t ih =>
    simp only [occurs, Bool.or_eq_false_iff] at absent
    rw [stripFrom, ih absent.2]
    rintro rest rfl rfl
    simp at absent

theorem strip_signless {t : Text} (absent : occurs ['/', '*'] t = false) : strip t = ⟨t, none⟩ :=
  stripFrom_signless absent 0 0

end Comment

namespace Brace

theorem closeFrom?_append {rest : Text} (free : Braceless rest) (depth : Nat) (t : Text) :
    closeFrom? depth (t ++ rest) =
      (closeFrom? depth t).map fun (inside, after) => (inside, after ++ rest) := by
  fun_induction closeFrom? depth t with
  | case1 depth =>
    cases found : closeFrom? depth rest with
    | none => simp [found]
    | some pair =>
      obtain ⟨split, -⟩ := closeFrom?_eq_some_iff.mp found
      exact absurd rfl (free '}' (by rw [split]; simp)).2
  | case2 t => simp [closeFrom?]
  | case3 depth t ih => simp [closeFrom?, ih, Function.comp_def]
  | case4 depth t ih => simp [closeFrom?, ih, Function.comp_def]
  | case5 depth c t _ _ _ ih => 
    simp [closeFrom?, ih, Function.comp_def]

theorem firstBlock?_append {rest : Text} (free : Braceless rest) (t : Text) :
    (firstBlock? (t ++ rest)).map (·.1) = (firstBlock? t).map (·.1) := by
  have empty : rest.dropWhile (· ≠ '{') = [] := by
    rw [List.dropWhile_eq_nil_iff]
    intro c inside
    simpa using (free c inside).1
  rw [firstBlock?, firstBlock?, List.dropWhile_append]
  cases t.dropWhile (· ≠ '{') with
  | nil => rw [List.isEmpty_nil, if_pos rfl, empty]
  | cons c inside =>
    simp [close?, closeFrom?_append free, Function.comp_def]

end Brace

namespace RecipeSource

theorem body?_strip_append {rest : Text} (free : Braceless rest)
    (apart : Stops Comment.isSign rest) (name t : Text) :
    body? ⟨name, (Comment.strip (t ++ rest)).text⟩ = body? ⟨name, (Comment.strip t).text⟩ := by
  obtain ⟨last, -, later⟩ := Comment.text_stripFrom_append 0 0 0 t
  rw [body?, body?, Comment.strip, later rest apart, Brace.firstBlock?_append]
  · rfl
  · intro c inside
    exact free c (Comment.mem_text_stripFrom inside)

end RecipeSource

namespace Text

theorem rawLines_newline (a b : Text) :
    rawLines (a ++ '\n' :: b) = rawLines a ++ rawLines b :=
  splitBy_cut (by decide) a b

theorem chopLines_append (front : List Text) {rest : List Text} (nonempty : rest ≠ []) :
    chopLines (front ++ rest) = front.map chop ++ chopLines rest := by
  induction front with
  | nil => rfl
  | cons line front ih => rw [List.cons_append, chopLines_cons _ (by simp [nonempty]), ih]; rfl

/-- The lines of two texts, and those of the first. Its last line alone is told apart: in front of
the second text it counts when it is empty, and loses its return. -/
theorem lines_newline (a b : Text) :
    ∃ front last, lines a = front ++ (if last = [] then [] else [last]) ∧
      lines (a ++ '\n' :: b) = front ++ chop last :: lines b := by
  have nonempty := splitBy_ne_nil (· == '\n') a
  have split : rawLines a = (rawLines a).dropLast ++ [(rawLines a).getLast nonempty] :=
    (List.dropLast_append_getLast nonempty).symm
  refine ⟨(rawLines a).dropLast.map chop, (rawLines a).getLast nonempty, ?_, ?_⟩
  · rw [lines_eq_chopLines]
    nth_rewrite 1 [split]
    rw [chopLines_append _ (by simp)]
    rfl
  · rw [lines_eq_chopLines, lines_eq_chopLines, rawLines_newline]
    nth_rewrite 1 [split]
    rw [List.append_assoc, chopLines_append _ (by simp), List.singleton_append,
      chopLines_cons _ (splitBy_ne_nil _ b)]

theorem toLower_blank {c : Char} (blank : isBlank c) : c.toLower = c := by
  unfold Char.toLower
  split
  next upper =>
    rw [ge_iff_le, UInt32.le_iff_toNat_le, UInt32.le_iff_toNat_le] at upper
    change 65 ≤ c.toNat ∧ c.toNat ≤ 90 at upper
    simp only [isBlank, Bool.or_eq_true, Bool.and_eq_true, decide_eq_true_eq, beq_iff_eq] at blank
    omega
  next => rfl

end Text

namespace RecipeSource

def content (block : RecipeSource) : Text × Option Text :=
  (block.name, block.body?)

theorem Gathering.text_push (gathering : Gathering) (line : Text) :
    (gathering.push line).text = gathering.text ++ (line ++ ['\n']) := by
  simp [Gathering.text, Gathering.push]

def completed (state : Option Gathering) (line : Text) : List RecipeSource :=
  match state <|> (header? line).map fun name => { name := name } with
  | none => []
  | some current =>
    let grown := current.push line
    if grown.isComplete then [grown.finish] else []

theorem gather_cons (state : Option Gathering) (line : Text) (lines : List Text) :
    gather state (line :: lines) =
      (completed state line ++ (gather (advance state line) lines).1,
        (gather (advance state line) lines).2) := by
  rw [gather, completed, advance]
  cases state <|> (header? line).map fun name => { name := name } with
  | none => rfl
  | some current =>
    dsimp only
    split <;> rfl

theorem gather_append {state : Option Gathering} {lines : List Text}
    (closed : (gather state lines).2 = none) (later : List Text) :
    (gather state (lines ++ later)).1 = (gather state lines).1 ++ (gather none later).1 := by
  induction lines generalizing state with
  | nil =>
    obtain rfl : state = none := by simpa [gather] using closed
    rfl
  | cons line lines ih =>
    rw [gather_cons] at closed
    rw [List.cons_append, gather_cons, gather_cons, ih closed, List.append_assoc]

theorem unclosed_append {state : Option Gathering} {lines : List Text}
    (closed : (gather state lines).2 = none) (later : List Text) :
    (gather state (lines ++ later)).2 = (gather none later).2 := by
  induction lines generalizing state with
  | nil =>
    obtain rfl : state = none := by simpa [gather] using closed
    rfl
  | cons line lines ih =>
    rw [gather_cons] at closed
    rw [List.cons_append, gather_cons, ih closed]

theorem header?_eq_some_iff {line name : Text} :
    header? line = some name ↔
      ∃ lead word gap rest, (∀ c ∈ lead, isBlank c) ∧ Folds "craftrecipe".toList word ∧ gap ≠ [] ∧
        (∀ c ∈ gap, isBlank c) ∧ name ≠ [] ∧ (∀ c ∈ name, Block.isNameChar c) ∧
        Stops Block.isNameChar rest ∧ line = lead ++ (word ++ (gap ++ (name ++ rest))) := by
  simp only [header?, Option.bind_eq_bind, Option.bind_eq_some_iff, Option.pure_def,
    Option.some.injEq, Prod.exists, folded?_eq_some_iff, afterBlanks?_eq_some_iff, run?_eq_some_iff]
  constructor
  · rintro ⟨_, ⟨word, folds, starts⟩, _, ⟨gap, spaced, blanks, -, rfl⟩, _, rest,
      ⟨nonempty, every, stops, rfl⟩, rfl⟩
    obtain ⟨lead, leading, split⟩ := exists_gap line
    exact ⟨lead, word, gap, rest, leading, folds, spaced, blanks, nonempty, every, stops,
      by rw [split, starts]⟩
  · rintro ⟨lead, word, gap, rest, leading, folds, spaced, blanks, nonempty, every, stops, rfl⟩
    have wordStops : Stops isBlank (word ++ (gap ++ (name ++ rest))) := by
      have spelled : "craftrecipe".toList = 'c' :: "raftrecipe".toList := by decide
      rw [spelled] at folds
      obtain _ | ⟨first, -⟩ := folds
      rename_i c _
      apply stops_cons
      rw [Bool.eq_false_iff]
      intro blank
      rw [foldsTo, toLower_blank blank] at first
      obtain rfl : c = 'c' := by simpa using first
      exact absurd blank (by decide)
    have nameStops : Stops isBlank (name ++ rest) := by
      cases name with
      | nil => contradiction
      | cons c name => exact stops_cons (Block.isBlank_eq_false (every c (by simp))) _
    exact ⟨_, ⟨word, folds, dropBlanks_append_stop leading wordStops⟩, _,
      ⟨gap, spaced, blanks, nameStops, rfl⟩, _, rest, ⟨nonempty, every, stops, rfl⟩, rfl⟩

theorem header?_return (line : Text) : header? (line ++ ['\r']) = header? line := by
  apply Option.ext
  intro name
  rw [header?_eq_some_iff, header?_eq_some_iff]
  constructor
  · rintro ⟨lead, word, gap, rest, leading, folds, spaced, blanks, nonempty, every, stops, split⟩
    -- The return is not the end of the name, so it is the end of what follows the name.
    rcases List.eq_nil_or_concat rest with rfl | ⟨rest, c, rfl⟩
    · obtain ⟨front, c, rfl⟩ := (List.eq_nil_or_concat name).resolve_left nonempty
      have last : '\r' = c := by simpa using congrArg List.getLast? split
      exact absurd (every c (by simp)) (by rw [← last]; decide)
    · have last : '\r' = c := by simpa using congrArg List.getLast? split
      subst last
      refine ⟨lead, word, gap, rest, leading, folds, spaced, blanks, nonempty, every, ?_, ?_⟩
      · cases rest with
        | nil => exact stops_nil _
        | cons c rest => simpa [Stops] using stops
      · simpa [← List.append_assoc] using split
  · rintro ⟨lead, word, gap, rest, leading, folds, spaced, blanks, nonempty, every, stops, rfl⟩
    refine ⟨lead, word, gap, rest ++ ['\r'], leading, folds, spaced, blanks, nonempty, every, ?_,
      by simp⟩
    cases rest with
    | nil => exact stops_cons (by decide) _
    | cons c rest => exact stops_append stops (by simp) _

theorem header?_chop (line : Text) : header? (chop line) = header? line := by
  rcases chop_cases line with same | same
  · rw [same]
  · rw [same, header?_return, ← same]

theorem content_finish_chop (current : Gathering) (line : Text) :
    (current.push (chop line)).isComplete = (current.push line).isComplete ∧
      content (current.push (chop line)).finish = content (current.push line).finish := by
  have ending : Braceless ['\r', '\n'] := by simp [Braceless]
  have newline : Braceless ['\n'] := by simp [Braceless]
  rcases chop_cases line with same | same
  · rw [same]
    exact ⟨rfl, rfl⟩
  · generalize chop line = short at same
    subst same
    refine ⟨by simp [Gathering.push, Gathering.isComplete], ?_⟩
    have text := body?_strip_append ending (stops_cons (by decide) _) current.name
      (Gathering.text current ++ short)
    have text' := body?_strip_append newline (stops_cons (by decide) _) current.name
      (Gathering.text current ++ short)
    rw [content, content, Gathering.finish, Gathering.finish]
    simpa [Gathering.text, Gathering.push] using text'.trans text.symm

/-- The return that ends the last line does not matter. -/
theorem gather_chop (state : Option Gathering) (lines : List Text) (last : Text) :
    (gather state (lines ++ [chop last])).1.map content =
        (gather state (lines ++ [last])).1.map content ∧
      (gather state (lines ++ [chop last])).2 = (gather state (lines ++ [last])).2 := by
  induction lines generalizing state with
  | nil =>
    rw [List.nil_append, List.nil_append, gather_cons, gather_cons, completed, completed, advance,
      advance, header?_chop]
    cases state <|> (header? last).map fun name => { name := name } with
    | none => exact ⟨rfl, rfl⟩
    | some current =>
      obtain ⟨complete, same⟩ := content_finish_chop current last
      dsimp only
      rw [complete]
      split
      · exact ⟨congrArg (fun one => [one]) same, rfl⟩
      · exact ⟨rfl, rfl⟩
  | cons line lines ih =>
    obtain ⟨blocks, unclosed⟩ := ih (advance state line)
    rw [List.cons_append, List.cons_append, gather_cons, gather_cons, List.map_append,
      List.map_append, blocks, unclosed]
    exact ⟨rfl, rfl⟩

theorem content_all_newline {a : Text} (closed : (gather none a.lines).2 = none) (b : Text) :
    (all (a ++ '\n' :: b)).value.map content =
      (all a).value.map content ++ (all b).value.map content := by
  obtain ⟨front, last, own, joined⟩ := lines_newline a b
  change (gather none (lines (a ++ '\n' :: b))).1.map content =
    (gather none a.lines).1.map content ++ (gather none b.lines).1.map content
  by_cases empty : last = []
  · have chopped : chop last = [] := by rw [empty]; rfl
    have skipped : (gather none ([] :: lines b)).1 = (gather none (lines b)).1 := by
      rw [gather_cons]
      rfl
    rw [if_pos empty, List.append_nil] at own
    rw [own] at closed ⊢
    rw [joined, chopped, gather_append closed, skipped, List.map_append]
  · obtain ⟨blocks, unclosed⟩ := gather_chop none front last
    rw [if_neg empty] at own
    rw [own] at closed ⊢
    rw [joined, ← List.singleton_append, ← List.append_assoc, gather_append (unclosed.trans closed),
      List.map_append, blocks]

end RecipeSource

namespace Text

theorem isPrefixOf_mark {word : Text} {mark : Char} (foreign : mark ∉ word) (a b : Text) :
    word.isPrefixOf (a ++ mark :: b) = word.isPrefixOf a := by
  induction word generalizing a with
  | nil => rfl
  | cons w word ih =>
    have other : w ≠ mark := fun same => foreign (by simp [same])
    cases a with
    | nil => simp [List.isPrefixOf, other]
    | cons c a =>
      have later := ih (fun inside => foreign (by simp [inside])) a
      simp [List.isPrefixOf, later]

theorem occurs_mark {word : Text} (nonempty : word ≠ []) {mark : Char} (foreign : mark ∉ word)
    (a b : Text) : occurs word (a ++ mark :: b) = (occurs word a || occurs word b) := by
  induction a with
  | nil =>
    have here := isPrefixOf_mark foreign [] b
    rw [List.nil_append] at here
    have unmatched : word.isPrefixOf [] = false := by
      cases word with
      | nil => contradiction
      | cons w word => rfl
    simp [occurs, here, unmatched, nonempty]
  | cons c a ih =>
    have here := isPrefixOf_mark foreign (c :: a) b
    rw [List.cons_append] at here
    rw [List.cons_append, occurs, occurs, here, ih, Bool.or_assoc]

theorem occurs_newline {word : Text} (nonempty : word ≠ []) (single : '\n' ∉ word) (a b : Text) :
    occurs word (a ++ '\n' :: b) = (occurs word a || occurs word b) :=
  occurs_mark nonempty single a b

theorem occurs_of_split {word front rest : Text} : occurs word (front ++ (word ++ rest)) := by
  induction front with
  | nil =>
    cases word with
    | nil => cases rest <;> simp [occurs]
    | cons w word => simp [occurs]
  | cons c front ih => simp [occurs, ih]

end Text

namespace Construction

theorem all_of_absent (settings : Settings) {t : Text}
    (absent : occurs "module".toList t = false) : all settings t = pure [] := by
  have silent : (Block.opener Keyword.module.word.toList).Silent none t [] := by
    intro front c back split
    rw [List.append_nil, Option.eq_none_iff_forall_ne_some]
    intro found read
    obtain ⟨-, gap, gap', -, -, -, -, -, here⟩ := Block.opener_eq_some_iff.mp read
    rw [split, here, List.append_assoc, List.append_assoc, List.append_assoc] at absent
    exact Bool.false_ne_true (absent.symm.trans occurs_of_split)
  rw [all, Block.all_silent silent]
  rfl

end Construction

def Issue.isUnclosed : Issue → Bool
  | .unclosedBlock _ _ | .unclosedComment _ => true
  | .unrecognizedLine _ | .missingSection _ _ => false

namespace Script

theorem closed_of_issues {settings : Settings} {source : Text}
    (closed : ∀ issue ∈ (report settings source).issues, issue.isUnclosed = false) :
    (Comment.strip source).unclosedAt = none ∧
      (RecipeSource.gather none (Comment.strip source).text.lines).2 = none := by
  rw [issues_report, issues_recipes] at closed
  constructor
  · cases found : (Comment.strip source).unclosedAt with
    | none => rfl
    | some offset =>
      simpa [commentIssues, found, Issue.isUnclosed] using closed (.unclosedComment offset)
  · cases found : (RecipeSource.gather none (Comment.strip source).text.lines).2 with
    | none => rfl
    | some name =>
      simpa [RecipeSource.all, found, Issue.isUnclosed] using
        closed (.unclosedBlock .craftRecipe (String.ofList name))

/-- Without modules, what is read depends on names and bodies of the recipes alone. -/
theorem value_recipes_of_absent (settings : Settings) {source : Text}
    (absent : occurs "module".toList (Comment.strip source).text = false) :
    (recipes settings source).value =
      ((RecipeSource.all (Comment.strip source).text).value.map RecipeSource.content).filterMap
        fun (name, body) =>
          body.map fun body => (RecipeBody.read settings (String.ofList name) body).value := by
  rw [value_recipes, Construction.all_of_absent settings absent, WithIssues.value_pure,
    List.append_nil, List.filterMap_map, List.filterMap_map]
  congr 1
  funext block
  exact value_readBlock settings block

/-- A text in which everything closes has no influence on the text behind it. -/
theorem recipes_report_newline (settings : Settings) {a b : Text}
    (absent : occurs "module".toList (Comment.strip a).text = false)
    (absent' : occurs "module".toList (Comment.strip b).text = false)
    (closed : ∀ issue ∈ (report settings a).issues, issue.isUnclosed = false) :
    (report settings (a ++ '\n' :: b)).recipes = (reportAll settings [a, b]).recipes := by
  obtain ⟨comments, blocks⟩ := closed_of_issues closed
  have joined := Comment.text_strip_newline comments b
  have nowhere : occurs "module".toList (Comment.strip (a ++ '\n' :: b)).text = false := by
    rw [joined, occurs_newline (by decide) (by decide), absent, absent', Bool.or_self]
  rw [recipes_report, (recipes_reportAll settings [a, b]).2,
    value_recipes_of_absent settings nowhere, joined, RecipeSource.content_all_newline blocks,
    List.filterMap_append, ← value_recipes_of_absent settings absent,
    ← value_recipes_of_absent settings absent']
  simp

/-- A first text that ends in a return, and a second in which neither recipe nor comment closes. -/
theorem recipes_report_newline_unclosed :
    let a := "/*\x7b*/craftRecipe A\n\x7btime=5\x7d\r".toList
    let b := "craftRecipe A \x7bk=1\x7d\ncraftRecipe B \x7b /*".toList
    occurs "module".toList (Comment.strip a).text = false ∧
      occurs "module".toList (Comment.strip b).text = false ∧
      (∀ issue ∈ (report {} a).issues, issue.isUnclosed = false) ∧
      (report {} (a ++ '\n' :: b)).recipes = (reportAll {} [a, b]).recipes := by
  intro a b
  have absent : occurs "module".toList (Comment.strip a).text = false := by decide +kernel
  have absent' : occurs "module".toList (Comment.strip b).text = false := by decide +kernel
  have closed : ∀ issue ∈ (report {} a).issues, issue.isUnclosed = false := by decide +kernel
  exact ⟨absent, absent', closed, recipes_report_newline {} absent absent' closed⟩

end Script

end CraftScript
