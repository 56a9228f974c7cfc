import CraftScript.Proofs.Concatenation
import CraftScript.Proofs.UnseenDifferences

/-! Texts with carriage returns before some of their newlines, beside the same texts without them. The
small readers, the searches and the scans for blocks take both to answers that differ in such returns
alone. -/
namespace CraftScript

namespace Text

/-- The second text is the first with carriage returns before some of its newlines. The first has
none. -/
inductive Returned : Text → Text → Prop
  | nil : Returned [] []
  | cons {c : Char} {t t' : Text} (plain : c ≠ '\r') (rest : Returned t t') :
      Returned (c :: t) (c :: t')
  | ended {t t' : Text} (rest : Returned t t') : Returned ('\n' :: t) ('\r' :: '\n' :: t')

def crlf (t : Text) : Text :=
  t.flatMap fun c => if c = '\n' then ['\r', '\n'] else [c]

theorem returned_crlf {t : Text} (unreturned : '\r' ∉ t) : Returned t (crlf t) := by
  induction t with
  | nil => exact .nil
  | cons c t ih =>
    obtain ⟨plain, later⟩ := not_or.mp (List.mem_cons.not.mp unreturned)
    have rest := ih later
    by_cases newline : c = '\n'
    · subst newline
      exact .ended rest
    · have front : crlf (c :: t) = c :: crlf t := by simp [crlf, newline]
      rw [front]
      exact .cons (Ne.symm plain) rest

namespace Returned

variable {t t' : Text}

theorem cons_right {c : Char} (alike : Returned t (c :: t')) (plain : c ≠ '\r') :
    ∃ s, t = c :: s ∧ Returned s t' := by
  cases alike with
  | cons _ rest => exact ⟨_, rfl, rest⟩
  | ended rest => contradiction

theorem cons_left {c : Char} (alike : Returned (c :: t) t') (single : c ≠ '\n') :
    ∃ s', t' = c :: s' ∧ Returned t s' := by
  cases alike with
  | cons _ rest => exact ⟨_, rfl, rest⟩
  | ended rest => contradiction

theorem append {s s' : Text} (front : Returned s s') (back : Returned t t') :
    Returned (s ++ t) (s' ++ t') := by
  induction front with
  | nil => exact back
  | cons plain _ ih => exact .cons plain ih
  | ended _ ih => exact .ended ih

theorem filter_eq (alike : Returned t t') : t'.filter (· != '\r') = t := by
  induction alike with
  | nil => rfl
  | cons plain _ ih => simp [plain, ih]
  | ended _ ih => simp [ih]

theorem newline_of_return {front behind : Text} (alike : Returned t (front ++ '\r' :: behind)) :
    ∃ rest, behind = '\n' :: rest := by
  generalize whole : front ++ '\r' :: behind = t' at alike
  induction alike generalizing front with
  | nil => simp at whole
  | cons plain _ ih =>
    cases front with
    | nil => exact absurd (List.cons.inj whole).1.symm plain
    | cons d front => exact ih (List.cons.inj whole).2
  | ended _ ih =>
    cases front with
    | nil => exact ⟨_, (List.cons.inj whole).2⟩
    | cons d front =>
      have later := (List.cons.inj whole).2
      cases front with
      | nil => simp at later
      | cons e front => exact ih (List.cons.inj later).2

/-- What stands before two places is the same, unless a newline follows. -/
theorem lastOf_eq {s s' rest rest' : Text} (whole : Returned (s ++ rest) (s' ++ rest'))
    (behind : Returned rest rest') (inside : ∃ c t, rest = c :: t ∧ c ≠ '\n')
    (previous : Option Char) : lastOf previous s = lastOf previous s' := by
  -- Without its returns the second text is the first, also up to the place.
  have kept : s'.filter (· != '\r') = s := by
    have both := whole.filter_eq
    rw [List.filter_append, behind.filter_eq] at both
    exact List.append_cancel_right both
  rcases List.eq_nil_or_concat s' with rfl | ⟨front, d, rfl⟩
  · simp [← kept]
  · by_cases isReturn : d = '\r'
    · subst isReturn
      rw [List.concat_eq_append, List.append_assoc] at whole
      obtain ⟨_, rfl⟩ := whole.newline_of_return
      obtain ⟨_, rfl, -⟩ := behind.cons_right (by decide)
      obtain ⟨c, _, split, other⟩ := inside
      exact absurd (List.cons.inj split).1.symm other
    · rw [← kept]
      simp [isReturn, lastOf]

end Returned

variable {t t' : Text}

theorem lines_returned (alike : Returned t t') : lines t' = lines t := by
  induction alike with
  | nil => rfl
  | @cons c t t' plain rest ih =>
    by_cases newline : c = '\n'
    · subst newline
      rw [lines, lines, ih]
    · rw [lines, lines, ih]
      · exact newline
      · intro _ same
        exact absurd same plain
      · exact newline
      · intro _ same
        exact absurd same plain
  | ended _ ih => rw [lines, lines, ih]

theorem returned_dropWhile {kind : Char → Bool} (closed : kind '\n' → kind '\r')
    (alike : Returned t t') : Returned (t.dropWhile kind) (t'.dropWhile kind) := by
  induction alike with
  | nil => exact .nil
  | @cons c t t' plain rest ih =>
    by_cases inside : kind c
    · simpa [inside] using ih
    · simpa [inside] using .cons plain rest
  | ended rest ih =>
    by_cases newline : kind '\n'
    · simpa [newline, closed newline] using ih
    · by_cases isReturn : kind '\r'
      · -- The run takes the return and stops at the newline in both texts.
        simpa [newline, isReturn] using .cons (by decide) rest
      · simpa [newline, isReturn] using .ended rest

theorem returned_dropBlanks (alike : Returned t t') : Returned (dropBlanks t) (dropBlanks t') :=
  returned_dropWhile (fun _ => by decide) alike

/-- A run within a line is the same, but for the return that may end it. -/
theorem takeWhile_returned {kind : Char → Bool} (single : kind '\n' = false)
    (alike : Returned t t') :
    t'.takeWhile kind = t.takeWhile kind ∨
      kind '\r' ∧ t'.takeWhile kind = t.takeWhile kind ++ ['\r'] := by
  induction alike with
  | nil => exact .inl rfl
  | @cons c t t' plain rest ih =>
    by_cases inside : kind c
    · simpa [inside] using ih
    · simp [inside]
  | ended rest ih =>
    by_cases isReturn : kind '\r'
    · simp [single, isReturn]
    · simp [single, isReturn]

theorem takeWhile_returned_eq {kind : Char → Bool} (single : kind '\n' = false)
    (unreturned : kind '\r' = false) (alike : Returned t t') :
    t'.takeWhile kind = t.takeWhile kind := by
  refine (takeWhile_returned single alike).resolve_right ?_
  simp [unreturned]

theorem rel_literal? {word : Text} (single : '\n' ∉ word) (unreturned : '\r' ∉ word)
    (alike : Returned t t') : Option.Rel Returned (literal? t word) (literal? t' word) := by
  induction word generalizing t t' with
  | nil => simpa [literal?] using alike
  | cons w word ih =>
    rw [List.mem_cons, not_or] at single unreturned
    cases alike with
    | nil => exact .none
    | @cons c t t' plain rest =>
      by_cases same : c = w
      · simpa [literal?, same] using ih single.2 unreturned.2 rest
      · simp [literal?, same]
    | ended rest => simp [literal?, single.1, unreturned.1]

theorem rel_folded? {word : Text} (single : ∀ lower ∈ word, foldsTo lower '\n' = false)
    (unreturned : ∀ lower ∈ word, foldsTo lower '\r' = false) (alike : Returned t t') :
    Option.Rel Returned (folded? t word) (folded? t' word) := by
  induction word generalizing t t' with
  | nil => simpa [folded?] using alike
  | cons w word ih =>
    rw [List.forall_mem_cons] at single unreturned
    cases alike with
    | nil => exact .none
    | @cons c t t' plain rest =>
      by_cases same : foldsTo w c
      · simpa [folded?, same] using ih single.2 unreturned.2 rest
      · simp [folded?, same]
    | ended rest => simp [folded?, single.1, unreturned.1]

theorem rel_afterBlanks? (alike : Returned t t') :
    Option.Rel Returned (afterBlanks? t) (afterBlanks? t') := by
  cases alike with
  | nil => exact .none
  | @cons c t t' plain rest =>
    by_cases blank : isBlank c
    · simpa [afterBlanks?, blank] using returned_dropBlanks rest
    · simp [afterBlanks?, blank]
  | @ended t t' rest =>
    have first : afterBlanks? ('\n' :: t) = some (dropBlanks t) := rfl
    have first' : afterBlanks? ('\r' :: '\n' :: t') = some (dropBlanks t') := rfl
    rw [first, first']
    exact .some (returned_dropBlanks rest)

theorem rel_run? {kind : Char → Bool} (single : kind '\n' = false) (unreturned : kind '\r' = false)
    (alike : Returned t t') : Option.Rel (AlikeRest Returned) (run? kind t) (run? kind t') := by
  have rest := @returned_dropWhile t t' kind (by simp [single]) alike
  rw [run?, run?, takeWhile_returned_eq single unreturned alike]
  split
  · exact .none
  · exact .some ⟨rfl, rest⟩

theorem rel_splitOnce? {separator : Char} (single : separator ≠ '\n') (unreturned : separator ≠ '\r')
    (alike : Returned t t') :
    Option.Rel (AlikeParts Returned) (splitOnce? separator t) (splitOnce? separator t') := by
  induction alike with
  | nil => exact .none
  | @cons c t t' plain rest ih =>
    by_cases same : c = separator
    · simpa [splitOnce?, same] using And.intro Returned.nil rest
    · simp only [splitOnce?, same, if_false]
      exact rel_map ih fun _ _ parts => ⟨.cons plain parts.1, parts.2⟩
  | ended rest ih =>
    simp only [splitOnce?, single.symm, unreturned.symm, if_false, Option.map_map]
    exact rel_map ih fun _ _ parts => ⟨.ended parts.1, parts.2⟩

end Text

open Text

namespace Comment

theorem returned_stripFrom {depth opened offset : Nat} {t t' : Text} (alike : Returned t t')
    (opened' offset' : Nat) :
    Returned (stripFrom depth opened offset t).text (stripFrom depth opened' offset' t').text ∧
      (stripFrom depth opened' offset' t').unclosedAt.isSome =
        (stripFrom depth opened offset t).unclosedAt.isSome := by
  fun_induction stripFrom depth opened offset t generalizing t' opened' offset' with
  | case1 opened offset =>
    cases alike
    exact ⟨.nil, rfl⟩
  | case2 depth opened offset =>
    cases alike
    exact ⟨.nil, rfl⟩
  | case3 opened offset t ih =>
    obtain ⟨_, rfl, behind⟩ := alike.cons_left (by decide)
    obtain ⟨_, rfl, inside⟩ := behind.cons_left (by decide)
    simpa only [stripFrom] using ih inside offset' (offset' + 2)
  | case4 depth opened offset t ih =>
    obtain ⟨_, rfl, behind⟩ := alike.cons_left (by decide)
    obtain ⟨_, rfl, inside⟩ := behind.cons_left (by decide)
    simpa only [stripFrom] using ih inside opened' (offset' + 2)
  | case5 depth opened offset t ih =>
    obtain ⟨_, rfl, behind⟩ := alike.cons_left (by decide)
    obtain ⟨_, rfl, inside⟩ := behind.cons_left (by decide)
    simpa only [stripFrom] using ih inside opened' (offset' + 2)
  | case6 opened offset c t notOpen rest =>
    rename_i ih
    cases alike with
    | @cons _ _ t' plain behind =>
      obtain ⟨text, closed⟩ := ih behind opened' (offset' + c.utf8Size)
      rw [stripFrom]
      · exact ⟨.cons plain text, closed⟩
      · rintro s slash rfl
        obtain ⟨_, rfl, -⟩ := behind.cons_right (by decide)
        exact notOpen _ slash rfl
    | @ended _ t' behind =>
      obtain ⟨text, closed⟩ := ih behind opened' (offset' + '\r'.utf8Size + '\n'.utf8Size)
      rw [stripFrom, stripFrom]
      · exact ⟨.ended text, closed⟩
      all_goals simp
  | case7 depth opened offset c t notOpen notClose ih =>
    cases alike with
    | @cons _ _ t' plain behind =>
      rw [stripFrom]
      · exact ih behind opened' (offset' + c.utf8Size)
      · rintro s slash rfl
        obtain ⟨_, rfl, -⟩ := behind.cons_right (by decide)
        exact notOpen _ slash rfl
      · rintro s star rfl
        obtain ⟨_, rfl, -⟩ := behind.cons_right (by decide)
        exact notClose _ star rfl
    | @ended _ t' behind =>
      rw [stripFrom, stripFrom]
      · exact ih behind opened' (offset' + '\r'.utf8Size + '\n'.utf8Size)
      all_goals simp

end Comment

namespace Brace

theorem rel_closeFrom? (depth : Nat) {t t' : Text} (alike : Returned t t') :
    Option.Rel (AlikeParts Returned) (closeFrom? depth t) (closeFrom? depth t') := by
  fun_induction closeFrom? depth t generalizing t' with
  | case1 =>
    cases alike
    exact .none
  | case2 t =>
    obtain ⟨_, rfl, rest⟩ := alike.cons_left (by decide)
    exact .some ⟨.nil, rest⟩
  | case3 depth t ih =>
    obtain ⟨_, rfl, rest⟩ := alike.cons_left (by decide)
    exact rel_map (ih rest) fun _ _ parts => ⟨.cons (by decide) parts.1, parts.2⟩
  | case4 depth t ih =>
    obtain ⟨_, rfl, rest⟩ := alike.cons_left (by decide)
    rw [closeFrom?]
    exact rel_map (ih rest) fun _ _ parts => ⟨.cons (by decide) parts.1, parts.2⟩
  | case5 depth c t notLast notClose notOpen ih =>
    cases alike with
    | cons plain rest =>
      rw [closeFrom?]
      · exact rel_map (ih rest) fun _ _ parts => ⟨.cons plain parts.1, parts.2⟩
      · exact notOpen
      · exact notLast
      · exact notClose
    | ended rest =>
      rw [closeFrom?, closeFrom?, Option.map_map]
      · exact rel_map (ih rest) fun _ _ parts => ⟨.ended parts.1, parts.2⟩
      all_goals simp

end Brace

namespace Pattern

variable {α : Type} {p : Pattern α} {same : α → α → Prop} {t t' : Text}

structure Unmoved (p : Pattern α) (same : α → α → Prop) : Prop where
  newline (previous : Option Char) (t : Text) : p previous ('\n' :: t) = none
  alike (previous : Option Char) {t t' : Text} (texts : Returned t t') :
    Option.Rel (fun a b => same a.1 b.1 ∧ Returned a.2 b.2) (p previous t) (p previous t')

def Advances (p : Pattern α) : Prop :=
  ∀ previous t value rest, p previous t = some (value, rest) →
    ∃ source, source ≠ [] ∧ t = source ++ rest

namespace Unmoved

theorem none_of_return (unmoved : Unmoved p same) (previous : Option Char) (texts : Returned t t') :
    p previous ('\r' :: '\n' :: t') = none := by
  have both := unmoved.alike previous (.ended texts)
  rw [unmoved.newline] at both
  generalize p previous ('\r' :: '\n' :: t') = found at both ⊢
  cases both
  rfl

theorem rel_firstFrom? (unmoved : Unmoved p same) (texts : Returned t t')
    (previous : Option Char) :
    Option.Rel (fun a b => Returned a.before b.before ∧ same a.value b.value ∧
      Returned a.after b.after) (firstFrom? p previous t) (firstFrom? p previous t') := by
  induction texts generalizing previous with
  | nil => exact .none
  | @cons c t t' plain rest ih =>
    have both := unmoved.alike previous (.cons plain rest)
    rw [firstFrom?, firstFrom?]
    generalize p previous (c :: t) = found at both ⊢
    generalize p previous (c :: t') = found' at both ⊢
    cases both with
    | none => exact rel_map (ih (some c)) fun _ _ parts => ⟨.cons plain parts.1, parts.2⟩
    | some read => exact .some ⟨.nil, read⟩
  | @ended t t' rest ih =>
    simp only [firstFrom?, unmoved.newline, unmoved.none_of_return previous rest, Option.map_map]
    exact rel_map (ih (some '\n')) fun _ _ parts => ⟨.ended parts.1, parts.2⟩

theorem piecesFrom_alike (unmoved : Unmoved p same) (advances : Advances p)
    (texts : Returned t t') (previous previous' : Option Char)
    (before : (∃ c s, t = c :: s ∧ c ≠ '\n') → previous = previous') :
    List.Forall₂ same ((piecesFrom p 0 previous t).filterMap Piece.value?)
        ((piecesFrom p 0 previous' t').filterMap Piece.value?) ∧
      Returned ((piecesFrom p 0 previous t).flatMap (Piece.replaced []))
        ((piecesFrom p 0 previous' t').flatMap (Piece.replaced [])) := by
  -- The search goes on behind what it has read, so the induction is on the length.
  induction size : t.length using Nat.strong_induction_on generalizing t t' previous previous' with
  | _ n ih =>
    subst size
    cases texts with
    | nil => exact ⟨.nil, .nil⟩
    | @ended t t' rest =>
      obtain ⟨values, left⟩ := ih t.length (by simp) rest (some '\n') (some '\n') (fun _ => rfl) rfl
      simp only [piecesFrom, unmoved.newline, unmoved.none_of_return _ rest]
      exact ⟨values, .ended left⟩
    | @cons c t t' plain rest =>
      by_cases newline : c = '\n'
      · subst newline
        obtain ⟨values, left⟩ := ih t.length (by simp) rest (some '\n') (some '\n') (fun _ => rfl) rfl
        simp only [piecesFrom, unmoved.newline]
        exact ⟨values, .cons plain left⟩
      · obtain rfl := before ⟨c, t, rfl, newline⟩
        have both := unmoved.alike previous (.cons plain rest)
        generalize found : p previous (c :: t) = read at both
        generalize found' : p previous (c :: t') = read' at both
        cases both with
        | none =>
          obtain ⟨values, left⟩ := ih t.length (by simp) rest (some c) (some c) (fun _ => rfl) rfl
          simp only [piecesFrom, found, found']
          exact ⟨values, .cons plain left⟩
        | @some a b parts =>
          obtain ⟨source, nonempty, split⟩ := advances _ _ _ _ found
          obtain ⟨source', nonempty', split'⟩ := advances _ _ _ _ found'
          have whole : Returned (source ++ a.2) (source' ++ b.2) := by
            rw [← split, ← split']
            exact .cons plain rest
          have shorter : a.2.length < (c :: t).length := by
            have positive := List.length_pos_iff.mpr nonempty
            rw [split, List.length_append]
            omega
          obtain ⟨values, left⟩ := ih a.2.length shorter parts.2 (lastOf previous source)
            (lastOf previous source') (fun inside => whole.lastOf_eq parts.2 inside previous) rfl
          rw [split] at found
          rw [split'] at found'
          rw [split, split', piecesFrom_found nonempty found, piecesFrom_found nonempty' found']
          exact ⟨.cons parts.1 values, left⟩

end Unmoved

end Pattern

theorem IsKeyword.not_mem {word : Text} (keyword : IsKeyword word) {c : Char} (blank : isBlank c) :
    c ∉ word := by
  intro inside
  simp [keyword.solid c inside] at blank

theorem literal?_newline {word : Text} (keyword : IsKeyword word) (t : Text) :
    literal? ('\n' :: t) word = none := by
  cases word with
  | nil => exact absurd rfl keyword.1
  | cons w word =>
    have other : '\n' ≠ w := fun same => keyword.not_mem (by decide) (List.mem_cons.mpr (.inl same))
    simp [literal?, other]

namespace Block

variable {word t t' : Text}

theorem unmoved_opener (keyword : IsKeyword word) : (opener word).Unmoved (· = ·) where
  newline previous t := by
    rw [opener, literal?_newline keyword]
    rfl
  alike previous _ _ texts := by
    have line := keyword.not_mem (c := '\n') (by decide)
    have unreturned := keyword.not_mem (c := '\r') (by decide)
    refine rel_bind (rel_literal? line unreturned texts) fun _ _ texts => ?_
    refine rel_bind (rel_guard _) fun _ _ _ => ?_
    refine rel_bind (rel_afterBlanks? texts) fun _ _ texts => ?_
    refine rel_bind (rel_run? (by decide) (by decide) texts) fun _ _ named => ?_
    refine rel_bind (rel_literal? (by decide) (by decide) (returned_dropBlanks named.2)) ?_
    exact fun _ _ texts => .some ⟨named.1, texts⟩

theorem scanFrom_block {previous : Option Char} {name inside body rest : Text}
    (read : opener word previous t = some (name, inside))
    (closed : Brace.close? inside = some (body, rest)) :
    ∃ source, source ≠ [] ∧ t = source ++ rest ∧ scanFrom word 0 previous t =
      (scanFrom word 0 (some '}') rest).cons (.found ⟨name, body⟩ source) := by
  obtain ⟨-, gap, gap', -, -, -, -, -, here⟩ := opener_eq_some_iff.mp read
  have within := Brace.eq_append_of_closeFrom? closed
  have split : t = (word ++ gap ++ name ++ gap' ++ '{' :: body ++ ['}']) ++ rest := by
    simp [here, within]
  refine ⟨_, by simp, split, ?_⟩
  rw [split] at read ⊢
  rw [scanFrom_found (by simp) read closed]
  simp

theorem scanFrom_alike (keyword : IsKeyword word) (texts : Returned t t') (previous : Option Char) :
    (scanFrom word 0 previous t).unclosed = (scanFrom word 0 previous t').unclosed ∧
      AlikePieces Returned (scanFrom word 0 previous t).pieces (scanFrom word 0 previous t').pieces := by
  have unmoved := unmoved_opener keyword
  induction size : t.length using Nat.strong_induction_on generalizing t t' previous with
  | _ n ih =>
    subst size
    cases texts with
    | nil => exact ⟨rfl, .nil, .nil⟩
    | @ended t t' rest =>
      obtain ⟨unclosed, values, left⟩ := ih t.length (by simp) rest (some '\n') rfl
      simp only [scanFrom, unmoved.newline, unmoved.none_of_return _ rest]
      exact ⟨unclosed, values, .ended left⟩
    | @cons c t t' plain rest =>
      have both := unmoved.alike previous (.cons plain rest)
      generalize found : opener word previous (c :: t) = read at both
      generalize found' : opener word previous (c :: t') = read' at both
      cases both with
      | none =>
        obtain ⟨unclosed, values, left⟩ := ih t.length (by simp) rest (some c) rfl
        simp only [scanFrom, found, found']
        exact ⟨unclosed, values, .cons plain left⟩
      | @some a b parts =>
        have closes := Brace.rel_closeFrom? 0 parts.2
        generalize closed : Brace.closeFrom? 0 a.2 = cut at closes
        generalize closed' : Brace.closeFrom? 0 b.2 = cut' at closes
        cases closes with
        | none =>
          rw [scanFrom_unclosed (by simp) found closed, scanFrom_unclosed (by simp) found' closed']
          refine ⟨congrArg some parts.1, ?_, ?_⟩
          · rw [Piece.filterMap_value?_kept, Piece.filterMap_value?_kept]
            exact .nil
          · rw [Piece.withoutFirst_kept, Piece.withoutFirst_kept]
            exact .cons plain rest
        | @some inner inner' behind =>
          obtain ⟨source, nonempty, split, scanned⟩ := scanFrom_block found closed
          obtain ⟨source', -, -, scanned'⟩ := scanFrom_block found' closed'
          have shorter : inner.2.length < (c :: t).length := by
            have positive := List.length_pos_iff.mpr nonempty
            rw [split, List.length_append]
            omega
          obtain ⟨unclosed, values, -⟩ := ih inner.2.length shorter behind.2 (some '}') rfl
          rw [scanned, scanned']
          refine ⟨unclosed, .cons ⟨parts.1, behind.1⟩ values, ?_⟩
          have left := flatMap_source_scanFrom word 0 (some '}') inner.2
          have left' := flatMap_source_scanFrom word 0 (some '}') inner'.2
          simpa [Scan.cons, Piece.withoutFirst, left, left'] using behind.2

end Block

end CraftScript
