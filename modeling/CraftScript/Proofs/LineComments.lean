import CraftScript.Proofs.CommentedSprites
import CraftScript.Proofs.RecipeBraces

/-! What line comments can change. The readers of sections and properties never see them, whatever they
hold; the searches before those readers see every character. So a comment without braces and keywords
that stands apart from heads changes nothing, and a brace in a comment counts. -/
namespace CraftScript

open Text Text.Phase
open Canonical (unlines unlines_append unlines_cons)

namespace Text

variable {s t line : Text} {lines pieces : List Text} {phase : Phase} {previous : Option Char}

theorem beforeLineComment_cases (line : Text) : beforeLineComment line = line ∨
    ∃ rest, line = beforeLineComment line ++ '/' :: '/' :: rest := by
  fun_induction beforeLineComment line with
  | case1 => exact .inl rfl
  | case2 t => exact .inr ⟨t, rfl⟩
  | case3 c t notComment ih =>
    rcases ih with same | ⟨rest, split⟩
    · exact .inl (by rw [same])
    · exact .inr ⟨rest, by rw [List.cons_append, ← split]⟩

theorem beforeLineComment_append (solid : ¬ ['/', '/'] <:+: s)
    (parted : ¬ (s.getLast? = some '/' ∧ t.head? = some '/')) :
    beforeLineComment (s ++ t) = s ++ beforeLineComment t := by
  induction s with
  | nil => rfl
  | cons c s ih =>
    have later : ¬ ['/', '/'] <:+: s := fun found =>
      solid (found.trans (List.suffix_cons c s).isInfix)
    cases s with
    | nil =>
      apply beforeLineComment_cons
      rintro ⟨rfl, rest, rfl⟩
      exact parted ⟨rfl, rfl⟩
    | cons d s =>
      rw [List.getLast?_cons_of_ne_nil (by simp)] at parted
      rw [List.cons_append, beforeLineComment_cons, ih later parted]
      · rfl
      · rintro ⟨rfl, rest, same⟩
        obtain ⟨rfl, -⟩ := List.cons.inj same
        exact solid ⟨[], s, rfl⟩

theorem chop_beforeLineComment (unreturned : ¬ ['\r', '/', '/'] <:+: line) :
    chop (beforeLineComment line) = beforeLineComment (chop line) := by
  induction line with
  | nil => rfl
  | cons c line ih =>
    have later := ih fun found => unreturned (found.trans (List.suffix_cons c line).isInfix)
    by_cases comment : c = '/' ∧ ['/'] <+: line
    · obtain ⟨rfl, rest, rfl⟩ := comment
      cases rest with
      | nil => rfl
      | cons d rest =>
        rw [List.singleton_append, chop_cons (by simp), chop_cons (by simp)]
        rfl
    · rw [beforeLineComment_cons comment]
      by_cases empty : line = []
      · subst empty
        by_cases isReturn : c = '\r'
        · subst isReturn
          rfl
        · have kept : chop [c] = [c] := by simp [chop, isReturn]
          rw [beforeLineComment, kept, beforeLineComment_cons (by simp), beforeLineComment]
      · have plain : ¬ (c = '/' ∧ ['/'] <+: chop line) := by
          rintro ⟨rfl, slash⟩
          refine comment ⟨rfl, slash.trans ?_⟩
          rcases chop_cases line with same | same
          · rw [same]
          · nth_rewrite 2 [same]
            exact List.prefix_append _ _
        rw [chop_cons empty, beforeLineComment_cons plain, ← later]
        by_cases cut : beforeLineComment line = []
        · have other : c ≠ '\r' := by
            rintro rfl
            rcases beforeLineComment_cases line with same | ⟨rest, split⟩
            · exact empty (same.symm.trans cut)
            · rw [cut] at split
              exact unreturned ⟨[], rest, by rw [split]; rfl⟩
          rw [cut]
          simp [chop, other]
        · rw [chop_cons cut]

theorem isInfix_of_mem_rawLines (member : line ∈ rawLines t) : line ++ ['\n'] <:+: t ++ ['\n'] := by
  obtain ⟨front, back, split⟩ := List.append_of_mem member
  have whole := unlines_rawLines t
  rw [split] at whole
  exact ⟨unlines front, unlines back, by simp [← whole, unlines]⟩

/-- With each line cut, the lines of a text are those of the text without its comments, but for a last
one that was all comment. -/
theorem map_beforeLineComment_lines (unreturned : ¬ ['\r', '/', '/'] <:+: t) :
    ∃ pad, (pad = [] ∨ pad = [[]]) ∧
      t.lines.map beforeLineComment = (uncommented t).lines ++ pad := by
  rw [lines_eq_chopLines, lines_eq_chopLines, rawLines_uncommented]
  have each : ∀ line ∈ rawLines t, ¬ ['\r', '/', '/'] <:+: line := by
    intro line member found
    have within := (found.trans (List.prefix_append line ['\n']).isInfix).trans
      (isInfix_of_mem_rawLines member)
    rcases List.infix_concat_iff.mp within with ends | inside
    · obtain ⟨front, same⟩ := ends
      simpa using congrArg List.getLast? same
    · exact unreturned inside
  generalize rawLines t = pieces at each
  fun_induction chopLines pieces with
  | case1 => exact ⟨[], .inl rfl, rfl⟩
  | case2 => exact ⟨[], .inl rfl, rfl⟩
  | case3 last nonempty =>
    rw [List.map_singleton, chopLines]
    by_cases empty : beforeLineComment last = []
    · exact ⟨[[]], .inr rfl, by simp [empty]⟩
    · exact ⟨[], .inl rfl, by simp [empty]⟩
  | case4 line next rest ih =>
    obtain ⟨pad, known, same⟩ := ih fun other member => each other (by simp [member])
    refine ⟨pad, known, ?_⟩
    rw [List.map_cons, same, List.map_cons (a := line), chopLines_cons _ (by simp),
      chop_beforeLineComment (each line (by simp)), List.cons_append]

theorem rawLines_unlines (single : ∀ line ∈ lines, '\n' ∉ line) :
    rawLines (unlines lines) = lines ++ [[]] := by
  induction lines with
  | nil => rfl
  | cons line lines ih =>
    have plain : rawLines line = [line] := by
      refine splitBy_solid fun c inside => ?_
      simpa using fun same : c = '\n' => single line (by simp) (same ▸ inside)
    rw [unlines_cons, rawLines_newline, plain, ih fun other member => single other (by simp [member])]
    rfl

theorem uncommented_unlines (single : ∀ line ∈ lines, '\n' ∉ line) :
    uncommented (unlines lines) = unlines (lines.map beforeLineComment) := by
  have whole := unlines_rawLines (uncommented (unlines lines))
  rw [rawLines_uncommented, rawLines_unlines single, List.map_append, List.flatMap_append] at whole
  exact (List.append_cancel_right whole).symm

theorem isInfix_of_uncommentedFrom {commented : Bool}
    (found : ['/', '*'] <:+: uncommentedFrom commented t) : ['/', '*'] <:+: t := by
  fun_induction uncommentedFrom commented t with
  | case1 => exact found
  | case2 t ih =>
    rcases List.infix_cons_iff.mp found with ⟨rest, same⟩ | inside
    · simp at same
    · exact (ih inside).trans (List.suffix_cons _ t).isInfix
  | case3 c t newline ih | case4 c t opens ih =>
    exact (ih found).trans (List.suffix_cons _ t).isInfix
  | case5 c t plain ih =>
    rcases List.infix_cons_iff.mp found with ⟨rest, same⟩ | inside
    · obtain ⟨rfl, behind⟩ := List.cons.inj same
      cases t with
      | nil => simp [uncommentedFrom] at behind
      | cons d t =>
        rw [uncommentedFrom] at behind
        split at behind
        · have head := head?_uncommentedFrom_true t
          simp [← behind] at head
        · obtain ⟨rfl, -⟩ := List.cons.inj behind
          exact ⟨[], t, rfl⟩
    · exact (ih inside).trans (List.suffix_cons _ t).isInfix

theorem signless_uncommented (signless : ¬ ['/', '*'] <:+: t) : ¬ ['/', '*'] <:+: uncommented t := by
  rw [← (uncommentedFrom_eq t).1]
  exact fun found => signless (isInfix_of_uncommentedFrom found)

theorem separate_newline : Separate keywords phase previous ['\n'] := by
  rw [separate_cons, next?_mark (by decide) (by decide)]
  cases phase <;> exact ⟨_, rfl, rfl⟩

theorem separate_chopLines (whole : Separate keywords phase previous (joinLines pieces)) :
    Separate keywords phase previous (unlines (chopLines pieces)) := by
  have parted := @parted_snoc '\n' (by decide) (by decide)
  fun_induction chopLines pieces generalizing phase previous with
  | case1 => rfl
  | case2 => rfl
  | case3 last nonempty =>
    obtain ⟨final, read⟩ := Option.isSome_iff_exists.mp whole
    have here : joinLines [last] = last := by simp [joinLines]
    rw [here] at read
    have text : unlines [last] = last ++ ['\n'] := by simp [unlines]
    rw [text, separate_append (parted_of_mark (by decide) (by decide) _ _)]
    exact ⟨final, read, separate_newline⟩
  | case4 line next rest ih =>
    have split : joinLines (line :: next :: rest) = line ++ '\n' :: joinLines (next :: rest) := by
      simp [joinLines, List.intercalate_cons_cons]
    have chopped :
        Separate keywords phase previous (chop line ++ '\n' :: joinLines (next :: rest)) := by
      rw [split] at whole
      rcases chop_cases line with same | same
      · rwa [same]
      · rw [same, List.append_assoc] at whole
        exact whole.drop_return
    rw [List.append_cons, separate_append (parted _ _)] at chopped
    obtain ⟨final, read, later⟩ := chopped
    have text : unlines (chop line :: chopLines (next :: rest)) =
        (chop line ++ ['\n']) ++ unlines (chopLines (next :: rest)) := by simp [unlines_cons]
    rw [text, separate_append (parted _ _)]
    exact ⟨final, read, ih later⟩

theorem separate_unlines (whole : Separate keywords phase previous t) :
    Separate keywords phase previous (unlines t.lines) := by
  rw [lines_eq_chopLines]
  exact separate_chopLines (by rwa [joinLines_rawLines])

theorem separate_unlines_append (whole : Separate keywords .free none (unlines lines ++ t)) :
    Separate keywords .free none (unlines lines) ∧ Separate keywords .free none t := by
  rcases List.eq_nil_or_concat' lines with rfl | ⟨front, last, rfl⟩
  · exact ⟨rfl, whole⟩
  · have text : unlines (front ++ [last]) = (unlines front ++ last) ++ ['\n'] := by simp [unlines]
    rw [text, List.append_assoc] at whole
    rw [text]
    exact whole.newline

theorem separate_of_lines (whole : Separate keywords .free none t) (inside : lines <:+: t.lines) :
    Separate keywords .free none (unlines lines) := by
  obtain ⟨front, back, split⟩ := inside
  have joined := separate_unlines whole
  rw [← split, unlines_append, unlines_append, List.append_assoc] at joined
  exact (separate_unlines_append (separate_unlines_append joined).2).1

theorem count_beforeLineComment {b : Char} (brace : isBrace b) (whole : Separate keywords .free none t)
    (member : line ∈ t.lines) : (beforeLineComment line).count b = line.count b := by
  have single := newline_not_mem_lines member
  obtain ⟨front, back, split⟩ := List.append_of_mem member
  have own := @separate_of_lines _ [line] whole ⟨front, back, by simp [split]⟩
  have counted := count_uncommentedFrom brace own
  rw [isCommented, (uncommentedFrom_eq _).1, uncommented_unlines (by simpa using single)] at counted
  simpa [unlines] using counted

end Text

namespace RecipeSource

variable {line name : Text} {lines own : List Text}

/-- A head is found in a line without its comment, unless the comment begins in the name. -/
theorem header?_beforeLineComment (solid : ∀ name ∈ header? line, ¬ ['/', '/'] <:+: name) :
    header? line.beforeLineComment = header? line := by
  apply Option.ext
  intro name
  constructor
  · intro named
    obtain ⟨lead, word, gap, rest, leading, folds, spaced, blanks, nonempty, every, stops, split⟩ :=
      header?_eq_some_iff.mp named
    rcases beforeLineComment_cases line with same | ⟨comment, whole⟩
    · rwa [← same]
    · rw [split] at whole
      by_cases empty : rest = []
      · -- The slashes would go on with the name.
        let behind := '/' :: '/' :: comment
        have longer : header? line = some (name ++ behind.takeWhile Block.isNameChar) := by
          refine header?_eq_some_iff.mpr ⟨lead, word, gap, behind.dropWhile Block.isNameChar, leading,
            folds, spaced, blanks, by simp [nonempty], ?_, stops_dropWhile _ _, ?_⟩
          · intro c inside
            exact (List.mem_append.mp inside).elim (every c) List.mem_takeWhile_imp
          · rw [List.append_assoc, List.takeWhile_append_dropWhile, whole, empty]
            simp [behind]
        refine absurd ?_ (solid _ longer)
        exact ⟨name, comment.takeWhile Block.isNameChar, by simp [behind, Block.isNameChar, isBlank]⟩
      · refine header?_eq_some_iff.mpr ⟨lead, word, gap, rest ++ '/' :: '/' :: comment, leading, folds,
          spaced, blanks, nonempty, every, stops_append stops empty _, ?_⟩
        simpa using whole
  · intro named
    obtain ⟨lead, word, gap, rest, leading, folds, spaced, blanks, nonempty, every, stops, split⟩ :=
      header?_eq_some_iff.mp named
    have slashless : '/' ∉ lead ++ word ++ gap := by
      simp only [List.mem_append, not_or]
      refine ⟨⟨fun inside => ?_, fun inside => ?_⟩, fun inside => ?_⟩
      · exact absurd (leading '/' inside) (by decide)
      · obtain ⟨lower, member, same⟩ := mem_of_folds folds inside
        have other : ∀ lower ∈ "craftrecipe".toList, foldsTo lower '/' = false := by decide
        simp [other lower member] at same
      · exact absurd (blanks '/' inside) (by decide)
    have front : beforeLineComment (lead ++ word ++ gap ++ (name ++ rest)) =
        lead ++ word ++ gap ++ beforeLineComment (name ++ rest) := by
      apply beforeLineComment_append
      · exact fun found => slashless (found.subset (by simp))
      · exact fun ends => slashless (List.mem_of_getLast? ends.1)
    have named' : beforeLineComment (name ++ rest) = name ++ beforeLineComment rest := by
      apply beforeLineComment_append (solid _ named)
      exact fun ends => absurd (stops '/' ends.2) (by decide)
    refine header?_eq_some_iff.mpr ⟨lead, word, gap, beforeLineComment rest, leading, folds, spaced,
      blanks, nonempty, every, ?_, ?_⟩
    · obtain ⟨comment, whole⟩ := isPrefix_beforeLineComment rest
      intro c first
      apply stops c
      rw [← whole, List.head?_append, first, Option.some_or]
    · rw [named'] at front
      simpa [split] using front

structure Keeps (f : Text → Text) (line : Text) : Prop where
  head : header? (f line) = header? line
  braces {b : Char} (brace : isBrace b) : (f line).count b = line.count b

variable {f : Text → Text}

theorem count_map (keeps : ∀ line ∈ lines, Keeps f line) {b : Char} (brace : isBrace b) :
    (unlines (lines.map f)).count b = (unlines lines).count b := by
  induction lines with
  | nil => rfl
  | cons line lines ih =>
    rw [List.map_cons, unlines_cons, unlines_cons, List.count_append, List.count_append,
      (keeps line (by simp)).braces brace]
    simp only [List.count_cons, ih fun other member => keeps other (by simp [member])]

theorem complete_map (keeps : ∀ line ∈ lines, Keeps f line) :
    Complete (lines.map f) ↔ Complete lines := by
  rw [Complete, Complete, ← List.count_pos_iff, ← List.count_pos_iff, count_map keeps (by decide),
    count_map keeps (by decide)]

theorem headed_map (keeps : ∀ line ∈ lines, Keeps f line) :
    (lines.map f).head?.bind header? = lines.head?.bind header? := by
  cases lines with
  | nil => rfl
  | cons line lines => exact (keeps line (by simp)).head

theorem not_complete_map (keeps : ∀ line ∈ lines, Keeps f line) {front : List Text}
    (early : front <+: lines) (incomplete : ¬ Complete front) : ¬ Complete (front.map f) := by
  rwa [complete_map fun line member => keeps line (early.subset member)]

theorem IsWhole.map (whole : IsWhole name own) (keeps : ∀ line ∈ own, Keeps f line) :
    IsWhole name (own.map f) where
  headed := (headed_map keeps).trans whole.headed
  complete := (complete_map keeps).mpr whole.complete
  earliest front early short := by
    obtain ⟨front, inside, rfl⟩ := List.prefix_map_iff.mp early
    refine not_complete_map keeps inside (whole.earliest front inside ?_)
    rintro rfl
    exact short rfl

theorem IsUnclosed.map (unclosed : IsUnclosed name own) (keeps : ∀ line ∈ own, Keeps f line) :
    IsUnclosed name (own.map f) where
  headed := (headed_map keeps).trans unclosed.headed
  incomplete front early := by
    obtain ⟨front, inside, rfl⟩ := List.prefix_map_iff.mp early
    exact not_complete_map keeps inside (unclosed.incomplete front inside)

namespace Layout

def map (f : Text → Text) : Layout → Layout
  | done => done
  | unclosed name own => unclosed name (own.map f)
  | skipped line rest => skipped (f line) (rest.map f)
  | recipe name own rest => recipe name (own.map f) (rest.map f)

theorem lines_map (layout : Layout) : (layout.map f).lines = layout.lines.map f := by
  induction layout with
  | done | unclosed => rfl
  | skipped line rest ih => rw [map, lines, lines, ih, List.map_cons]
  | recipe name own rest ih => rw [map, lines, lines, ih, List.map_append]

theorem unclosed?_map (layout : Layout) : (layout.map f).unclosed? = layout.unclosed? := by
  induction layout with
  | done | unclosed => rfl
  | skipped line rest ih | recipe name own rest ih => exact ih

theorem sound_map {layout : Layout} (sound : layout.Sound)
    (keeps : ∀ line ∈ layout.lines, Keeps f line) : (layout.map f).Sound := by
  induction layout with
  | done => trivial
  | unclosed name own => exact sound.map keeps
  | skipped line rest ih =>
    refine ⟨(keeps line (by simp [lines])).head.trans sound.1, ih sound.2 fun other member => ?_⟩
    exact keeps other (by simp [lines, member])
  | recipe name own rest ih =>
    refine ⟨sound.1.map fun line member => ?_, ih sound.2 fun line member => ?_⟩
    · exact keeps line (List.mem_append_left _ member)
    · exact keeps line (List.mem_append_right _ member)

theorem forall₂_recipes_map {same : RecipeSource → RecipeSource → Prop} {layout : Layout}
    (each : ∀ name own, own <:+: layout.lines → same (ofLines name own) (ofLines name (own.map f))) :
    List.Forall₂ same layout.recipes (layout.map f).recipes := by
  induction layout with
  | done | unclosed => exact .nil
  | skipped line rest ih =>
    exact ih fun name own inside => each name own (inside.trans (List.suffix_cons line _).isInfix)
  | recipe name own rest ih =>
    refine .cons (each name own (List.prefix_append own _).isInfix) (ih fun name' own' inside => ?_)
    exact each name' own' (inside.trans (List.suffix_append own _).isInfix)

end Layout

/-- Lines that keep their heads and braces are gathered to the like recipes. -/
theorem gather_map {same : RecipeSource → RecipeSource → Prop}
    (keeps : ∀ line ∈ lines, Keeps f line)
    (each : ∀ name own, own <:+: lines → same (ofLines name own) (ofLines name (own.map f))) :
    List.Forall₂ same (gather none lines).1 (gather none (lines.map f)).1 ∧
      (gather none (lines.map f)).2 = (gather none lines).2 := by
  obtain ⟨layout, rfl, sound⟩ := Layout.exists_sound lines
  rw [← Layout.lines_map, Layout.gather_lines sound,
    Layout.gather_lines (Layout.sound_map sound keeps)]
  exact ⟨Layout.forall₂_recipes_map each, layout.unclosed?_map⟩

theorem gather_blank {state : Option Gathering} (incomplete : ∀ current ∈ state, ¬ current.isComplete)
    (lines : List Text) : gather state (lines ++ [[]]) = gather state lines := by
  induction lines generalizing state with
  | nil =>
    cases state with
    | none => rfl
    | some current =>
      have grown : ¬ (current.push []).isComplete := by
        simpa [Gathering.push, Gathering.isComplete] using incomplete current rfl
      simp [gather, grown, push_name]
  | cons line lines ih =>
    rw [List.cons_append, gather, gather]
    split
    · exact ih (by simp)
    · dsimp only
      split
      · rw [ih (by simp)]
      · rename_i continues
        exact ih (by simpa using continues)

end RecipeSource

/-- The line comments of a text that stand apart from what is read: from keywords and braces, from the
names in the heads of recipes, from the faces, rows and base health in components of sprites, and from
carriage returns in front of them. -/
structure CommentsApart (source : Text) : Prop where
  separate : Separate keywords .free none source
  names : ∀ line ∈ source.lines, ∀ name ∈ RecipeSource.header? line, ¬ ['/', '/'] <:+: name
  sprites : ∀ entity ∈ Construction.entities source,
    ∀ body ∈ Construction.spriteBody? entity, Construction.SpritesApart body
  returns : ¬ ['\r', '/', '/'] <:+: source

namespace CommentsApart

variable {source : Text} (apart : CommentsApart source)
include apart

theorem keeps : ∀ line ∈ source.lines, RecipeSource.Keeps beforeLineComment line := by
  intro line member
  exact ⟨RecipeSource.header?_beforeLineComment (apart.names line member),
    fun brace => count_beforeLineComment brace apart.separate member⟩

theorem gather_lines {same : RecipeSource → RecipeSource → Prop}
    (each : ∀ name own, own <:+: source.lines →
      same (RecipeSource.ofLines name own) (RecipeSource.ofLines name (own.map beforeLineComment))) :
    WithIssues.Agree (List.Forall₂ same) (RecipeSource.all source)
      (RecipeSource.all source.uncommented) := by
  obtain ⟨blocks, unclosed⟩ := RecipeSource.gather_map apart.keeps each
  obtain ⟨pad, known, lined⟩ := map_beforeLineComment_lines apart.returns
  have gathered : RecipeSource.gather none (source.lines.map beforeLineComment) =
      RecipeSource.gather none source.uncommented.lines := by
    rw [lined]
    rcases known with rfl | rfl
    · rw [List.append_nil]
    · exact RecipeSource.gather_blank (by simp) _
  rw [gathered] at blocks unclosed
  refine ⟨?_, blocks⟩
  simp only [RecipeSource.all, unclosed]

end CommentsApart

theorem Brace.firstBlock?_uncommented {t : Text} (whole : Separate keywords .free none t) :
    Option.Rel (Text.Uncommented keywords) ((firstBlock? (uncommentedFrom false t)).map (·.1))
      ((firstBlock? t).map (·.1)) := by
  by_cases opens : '{' ∈ t
  · obtain ⟨lead, inside, rfl, absent⟩ := List.eq_append_cons_of_mem opens
    obtain ⟨-, behind, split⟩ := whole.brace (by decide)
    have absent' : '{' ∉ uncommentedFrom false lead :=
      fun inside => absent (mem_of_mem_uncommentedFrom inside)
    have closes := toBrace_closeFrom?.uncommented behind 0
    rw [isCommented] at split closes
    rw [split, firstBlock?_of_mem absent, firstBlock?_of_mem absent', close?, close?, closes]
    cases closed : closeFrom? 0 inside with
    | none => exact .none
    | some parts => exact .some ⟨(toBrace_closeFrom?.separate behind 0 closed).1, rfl⟩
  · have absent : '{' ∉ uncommentedFrom false t :=
      fun inside => opens (mem_of_mem_uncommentedFrom inside)
    rw [firstBlock?_of_not_mem opens, firstBlock?_of_not_mem absent]
    exact .none

namespace Script

theorem readBlock_uncommented (settings : Settings) {source : Text} {own : List Text}
    (signless : ¬ ['/', '*'] <:+: source) (whole : Separate keywords .free none source)
    (within : own <:+: source.lines) (name : Text) :
    readBlock settings (RecipeSource.ofLines name (own.map beforeLineComment)) =
      readBlock settings (RecipeSource.ofLines name own) := by
  have single : ∀ line ∈ own, '\n' ∉ line :=
    fun line member => newline_not_mem_lines (within.subset member)
  have signless' : ¬ ['/', '*'] <:+: unlines own := by
    obtain ⟨front, back, split⟩ := within
    intro found
    refine signless (isInfix_of_unlines ⟨by simp, by decide⟩ (found.trans ?_))
    rw [← split]
    exact ⟨unlines front, unlines back, by simp only [unlines_append]⟩
  have stripped := (Comment.strip_eq_self_iff _).mpr signless'
  have stripped' := (Comment.strip_eq_self_iff _).mpr (signless_uncommented signless')
  have bodies := Brace.firstBlock?_uncommented (separate_of_lines whole within)
  rw [(uncommentedFrom_eq _).1] at bodies
  simp only [readBlock, RecipeSource.body?, RecipeSource.ofLines, ← uncommented_unlines single,
    stripped, stripped']
  generalize (Brace.firstBlock? (unlines own)).map (·.1) = body at bodies ⊢
  generalize (Brace.firstBlock? (uncommented (unlines own))).map (·.1) = body' at bodies ⊢
  cases bodies with
  | none => rfl
  | some texts => simp only [Option.mapM_some, unseen_uncommented.read settings _ texts]

theorem recipes_uncommented (settings : Settings) {source : Text}
    (signless : ¬ ['/', '*'] <:+: source) (apart : CommentsApart source) :
    recipes settings source.uncommented = recipes settings source := by
  have plain : occurs ['/', '*'] source = false := by
    rwa [Bool.eq_false_iff, Ne, occurs_iff_isInfix]
  have plain' : occurs ['/', '*'] source.uncommented = false := by
    rw [Bool.eq_false_iff, Ne, occurs_iff_isInfix]
    exact signless_uncommented signless
  have texts : Text.Uncommented keywords source.uncommented source :=
    ⟨apart.separate, (uncommentedFrom_eq source).1.symm⟩
  have blocks : WithIssues.Agree
      (List.Forall₂ fun block block' => readBlock settings block' = readBlock settings block)
      (RecipeSource.all source) (RecipeSource.all source.uncommented) :=
    apart.gather_lines fun name own within =>
      readBlock_uncommented settings signless apart.separate within name
  have constructed := unseen_uncommented.constructions settings texts fun _ _ entity inside alike =>
    Construction.alikeSprites_uncommented alike (apart.sprites entity inside)
  rw [recipes, recipes, Comment.strip_signless plain, Comment.strip_signless plain', constructed]
  apply WithIssues.eq_of_agree
  refine WithIssues.agree_bind blocks fun _ _ found => ?_
  refine WithIssues.agree_bind (WithIssues.agree_mapM found fun _ _ _ _ same => same) ?_
  rintro crafted _ rfl
  exact WithIssues.agree_refl _

/-- In a script that opens no block comment, line comments that stand apart from what is read change
neither recipes nor issues. -/
theorem report_uncommented (settings : Settings) {source : Text}
    (signless : ¬ ['/', '*'] <:+: source) (apart : CommentsApart source) :
    report settings source.uncommented = report settings source := by
  simp only [report, reportAll, List.foldl_cons, List.foldl_nil,
    recipes_uncommented settings signless apart]

/-- Comments at the ends of lines and on lines of their own, which hold a path, the head of a recipe
and the word for a row, in a recipe with a line that is noted and among the rows of a construction. -/
theorem report_uncommented_nested :
    let source := unlines (["// craftRecipe X", "craftRecipe N // first", "\x7b", "time = 5, // ticks",
      "inputs \x7b item 1 [Base.A], // one", "odd // http://x", "\x7d", "\x7d", "module M \x7b",
      "entity E \x7b component CraftRecipe \x7b // mapper", "itemMapper m \x7b", "a = b // old",
      "\x7d", "\x7d", "component SpriteConfig \x7b // rows, faces", "skillBaseHealth = 250 // low",
      "face S \x7b // south", "row = a b, // front row", "row = c", "// seen from above",
      "\x7d \x7d", "\x7d \x7d // end"].map String.toList)
    ¬ ['/', '*'] <:+: source ∧ CommentsApart source ∧ source.uncommented ≠ source ∧
      (report {} source).recipes.map (·.sprites) =
        [none, some (Dict.ofList [("S", ["a", "b", "c"])])] ∧
      (report {} source).issues ≠ [] ∧ report {} source.uncommented = report {} source := by
  intro source
  have signless : ¬ ['/', '*'] <:+: source := by decide +kernel
  have apart : CommentsApart source := by
    constructor <;> decide +kernel
  exact ⟨signless, apart, by decide +kernel, by decide +kernel, by decide +kernel,
    report_uncommented {} signless apart⟩

/-- The brace in the comment ends the recipe before its property. -/
theorem brace_in_line_comment_counts :
    let source := "craftRecipe N \x7b\n// \x7d\ntime = 5\n\x7d".toList
    occurs ['/', '*'] source = false ∧
      (report {} source).recipes ≠ (report {} (uncommented source)).recipes := by
  decide

end Script

end CraftScript
