import CraftScript.Proofs.CommentedTexts
import CraftScript.Proofs.Tables
import CraftScript.Proofs.UnseenDifferences

/-! Searches in texts with line comments that are separate. Keywords and braces stand outside of the
comments, so that whatever a search finds, it finds without the comments as well. -/
namespace CraftScript

open Text Text.Phase

namespace Pattern

variable {terms : Vocabulary} {α : Type} {p : Pattern α} {f : α → α} {fine : α → Prop} {b : Char}
  {phase : Phase} {previous : Option Char} {t : Text}

def Heads (p : Pattern α) (terms : Vocabulary) : Prop :=
  ∀ previous t value inside, p previous t = some (value, inside) → keywordAt terms previous t ∧
    ∃ s, Braceless s ∧ t = s ++ '{' :: inside ∧
      ∀ other, p previous (s ++ '{' :: other) = some (value, other)

/-- A pattern that begins with a keyword and ends with the brace `b`. From a text without its comments
it reads the same up to `f`, and what it reads where comments are separate is fine. -/
structure Steady (p : Pattern α) (terms : Vocabulary) (f : α → α) (fine : α → Prop) (b : Char) :
    Prop where
  keyword {previous : Option Char} {t rest : Text} {value : α}
    (read : p previous t = some (value, rest)) : keywordAt terms previous t
  ends {previous : Option Char} {t rest : Text} {value : α}
    (read : p previous t = some (value, rest)) : ∃ source, t = source ++ b :: rest
  reads {previous : Option Char} {t : Text} (whole : Separate terms .free previous t) :
    p previous (uncommentedFrom false t) =
      (p previous t).map fun (value, rest) => (f value, uncommentedFrom false rest)
  sound {previous : Option Char} {t rest : Text} {value : α} (whole : Separate terms .free previous t)
    (read : p previous t = some (value, rest)) : fine value

theorem Heads.steady (heads : Heads p terms) : Steady p terms id (fun _ => True) '{' where
  keyword read := (heads _ _ _ _ read).1
  ends read := by
    obtain ⟨-, s, -, split, -⟩ := heads _ _ _ _ read
    exact ⟨s, split⟩
  sound _ _ := trivial
  reads {previous t} whole := by
    apply Option.ext
    rintro ⟨value, rest⟩
    rw [Option.map_eq_some_iff]
    constructor
    · intro read
      obtain ⟨head, s, free, split, reads⟩ := heads _ _ _ _ read
      rw [keywordAt_uncommentedFrom] at head
      rcases exists_first_brace t with braceless | ⟨s', b, inside, free', brace, rfl⟩
      · have absent := (braceless_uncommentedFrom braceless false).not_mem.1
        exact absurd (by rw [split]; simp) absent
      · rw [whole.stretch head free' brace] at split
        obtain ⟨rfl, rfl, rfl⟩ :=
          first_brace_unique free' free (isBrace_iff.mp brace) (.inl rfl) split
        exact ⟨(value, inside), reads inside, rfl⟩
    · rintro ⟨⟨value', inside⟩, read, same⟩
      obtain ⟨rfl, rfl⟩ := Prod.mk.inj same
      obtain ⟨head, s, free, rfl, reads⟩ := heads _ _ _ _ read
      rw [whole.stretch head free (by decide)]
      exact reads _

namespace Steady

theorem none_of_quiet (steady : Steady p terms f fine b) (quiet : keywordAt terms previous t = false) :
    p previous t = none := by
  rw [Option.eq_none_iff_forall_ne_some]
  rintro ⟨value, rest⟩ read
  simp [steady.keyword read] at quiet

/-- The first occurrence is the same. In a comment nothing is found, and behind it the search goes on
at the newline, so what stands before that does not matter. -/
theorem firstFrom? {previous' : Option Char} (steady : Steady p terms f fine b)
    (whole : Separate terms phase previous t)
    (same : phase.isCommented = false → previous' = previous) :
    Pattern.firstFrom? p previous' (uncommentedFrom phase.isCommented t) =
      (Pattern.firstFrom? p previous t).map fun found =>
        ⟨uncommentedFrom phase.isCommented found.before, f found.value,
          uncommentedFrom false found.after⟩ := by
  induction t generalizing phase previous previous' with
  | nil => rfl
  | cons c t ih =>
    obtain ⟨next, step, later⟩ := separate_cons.mp whole
    -- What stands before an occurrence tells as much of a comment as the whole text does.
    have opens : ∀ found, Pattern.firstFrom? p (some c) t = some found →
        opensComment (c :: found.before) = opensComment (c :: t) := by
      intro found first
      obtain ⟨here, split, occurs⟩ := firstFrom?_eq_some first
      rw [← lastOf_cons previous] at occurs
      rw [split]
      exact (opensComment_append (parted_of_keywordAt (steady.keyword occurs)) (by simp)).symm
    rcases next?_cases step with
      ⟨rfl, quiet, -, rfl⟩ | ⟨rfl, slash, comment, rfl⟩ | ⟨outside, plain, outside', headed, -⟩
    · rw [Pattern.firstFrom?, steady.none_of_quiet quiet]
      by_cases newline : c = '\n'
      · subst newline
        have unread : p previous' ('\n' :: uncommentedFrom false t) = none :=
          steady.none_of_quiet (keywordAt_eq_false (by decide) _ _)
        rw [if_pos rfl] at later
        have rest := @ih _ _ (some '\n') later fun _ => rfl
        simp only [isCommented] at rest
        simp only [isCommented, uncommentedFrom, if_true, Pattern.firstFrom?, unread, rest,
          Option.map_map]
        rfl
      · rw [if_neg newline] at later
        have rest := @ih _ _ previous' later (by simp [isCommented])
        simp only [isCommented] at rest
        simp only [isCommented, uncommentedFrom, if_neg newline, rest, Option.map_map]
        refine Option.map_congr fun found _ => ?_
        simp [uncommentedFrom, newline]
    · have quiet : keywordAt terms previous (c :: t) = false := by
        rw [slash]
        exact keywordAt_eq_false (by decide) _ _
      have rest := @ih _ _ previous' later (by simp [isCommented])
      simp only [isCommented] at rest
      simp only [isCommented, uncommentedFrom, comment, Pattern.firstFrom?,
        steady.none_of_quiet quiet, if_true, Option.map_map, rest]
      refine Option.map_congr fun found first => ?_
      simp [uncommentedFrom, opens found first, comment]
    · obtain rfl := same outside
      have front : uncommentedFrom false (c :: t) = c :: uncommentedFrom false t := by
        rw [uncommentedFrom, plain]
        rfl
      have here : p previous' (c :: uncommentedFrom false t) =
          (p previous' (c :: t)).map fun (value, rest) => (f value, uncommentedFrom false rest) := by
        rw [← front]
        by_cases head : keywordAt terms previous' (c :: t)
        · obtain ⟨rfl, -⟩ := headed head
          exact steady.reads whole
        · rw [Bool.not_eq_true] at head
          rw [steady.none_of_quiet head, steady.none_of_quiet]
          · rfl
          · rwa [keywordAt_uncommentedFrom]
      have rest := @ih _ _ (some c) later fun _ => rfl
      rw [outside'] at rest
      rw [outside, front, Pattern.firstFrom?, Pattern.firstFrom?, here]
      cases found : p previous' (c :: t) with
      | some pair => rfl
      | none =>
        simp only [Option.map_none, rest, Option.map_map]
        refine Option.map_congr fun found first => ?_
        simp [uncommentedFrom, opens found first, plain]

/-- Where a pattern is first read comments are separate, and so they are behind it and where it is
cut out. -/
theorem around (steady : Steady p terms f fine b) (brace : isBrace b)
    (whole : Separate terms phase previous t) {found : Occurrence α} (first : Pattern.firstFrom? p previous t = some found) :
    ∃ source, t = found.before ++ (source ++ b :: found.after) ∧
      p (lastOf previous found.before) (source ++ b :: found.after) =
        some (found.value, found.after) ∧
      Separate terms .free (lastOf previous found.before) (source ++ b :: found.after) ∧
      Separate terms .free none found.after ∧
      ∀ rest, Separate terms .free none rest → Separate terms phase previous (found.before ++ rest) ∧
        uncommentedFrom phase.isCommented (found.before ++ rest) =
          uncommentedFrom phase.isCommented found.before ++ uncommentedFrom false rest := by
  obtain ⟨here, rfl, read⟩ := firstFrom?_eq_some first
  obtain ⟨source, rfl⟩ := steady.ends read
  obtain ⟨apart, cut⟩ := whole.cut (steady.keyword read)
  exact ⟨source, rfl, read, apart, (apart.brace brace).2.1, cut⟩

/-- A search finds the like in a text without its comments, and leaves the like. -/
theorem piecesFrom (steady : Steady p terms f fine b) (brace : isBrace b)
    (whole : Separate terms .free previous t) :
    (p.piecesFrom 0 previous (uncommentedFrom false t)).filterMap Piece.value? =
        ((p.piecesFrom 0 previous t).filterMap Piece.value?).map f ∧
      (∀ value ∈ (p.piecesFrom 0 previous t).filterMap Piece.value?, fine value) ∧
      (p.piecesFrom 0 previous (uncommentedFrom false t)).flatMap (Piece.replaced []) =
        uncommentedFrom false ((p.piecesFrom 0 previous t).flatMap (Piece.replaced [])) ∧
      Separate terms .free previous ((p.piecesFrom 0 previous t).flatMap (Piece.replaced [])) := by
  -- The search goes on behind what it has read, so the induction is on the length.
  induction size : t.length using Nat.strong_induction_on generalizing t previous with
  | _ n ih =>
    subst size
    have both := steady.firstFrom? whole fun _ => rfl
    cases first : p.firstFrom? previous t with
    | none =>
      rw [first, Option.map_none] at both
      have kept := piecesFrom_of_silent (silent_of_firstFrom? first)
      have kept' := piecesFrom_of_silent (silent_of_firstFrom? both)
      simp only [isCommented] at kept'
      rw [kept, kept', Piece.filterMap_value?_kept, Piece.filterMap_value?_kept,
        Piece.flatMap_replaced_kept, Piece.flatMap_replaced_kept]
      exact ⟨rfl, by simp, rfl, whole⟩
    | some found =>
      rw [first, Option.map_some] at both
      obtain ⟨source, split, read, apart, behind, cut⟩ := steady.around brace whole first
      obtain ⟨here, split', read'⟩ := firstFrom?_eq_some both
      obtain ⟨source', rfl⟩ := steady.ends read'
      have pieces := @piecesFrom_of_first _ p previous t (source ++ [b]) found first (by simp)
        (by simpa using split)
      have pieces' := @piecesFrom_of_first _ p previous _ (source' ++ [b]) _ both (by simp)
        (by simpa using split')
      have shorter : found.after.length < t.length := by
        rw [split]
        simp only [List.length_append, List.length_cons]
        omega
      obtain ⟨mark, noSlash⟩ := mark_of_isBrace brace
      obtain ⟨values, fines, left, rest⟩ := ih found.after.length shorter
        ((separate_mark mark noSlash).mpr behind) rfl
      obtain ⟨joined, kept⟩ := cut _ ((separate_mark mark noSlash).mp rest)
      simp only [isCommented, ← List.append_assoc, lastOf_append, lastOf_cons, lastOf_nil]
        at pieces pieces' kept
      rw [pieces, pieces']
      simp only [List.filterMap_append, Piece.filterMap_value?_kept, List.filterMap_cons,
        Piece.value?, List.nil_append, List.map_cons, values, List.flatMap_append,
        Piece.flatMap_replaced_kept, List.flatMap_cons, Piece.replaced, left]
      exact ⟨trivial, List.forall_mem_cons.mpr ⟨steady.sound apart read, fines⟩, kept.symm, joined⟩

end Steady

end Pattern

namespace Brace

variable {terms : Vocabulary} {σ : Type} {read : σ → Text → Option (Text × Text)} {phase : Phase}
  {previous : Option Char} {t : Text}

structure ToBrace (read : σ → Text → Option (Text × Text)) : Prop where
  nil (state : σ) : read state [] = none
  plain (state : σ) {c : Char} (other : isBrace c = false) (t : Text) :
    read state (c :: t) = (read state t).map fun (inside, rest) => (c :: inside, rest)
  brace (state : σ) {b : Char} (brace : isBrace b) : (∀ t, read state (b :: t) = some ([], t)) ∨
    ∃ next, ∀ t, read state (b :: t) = (read next t).map fun (inside, rest) => (b :: inside, rest)
  ends {state : σ} {t inside rest : Text} (found : read state t = some (inside, rest)) :
    t = inside ++ '}' :: rest

theorem toBrace_closeFrom? : ToBrace closeFrom? where
  nil depth := by simp [closeFrom?]
  plain depth c other t := by
    simp only [isBrace, Bool.or_eq_false_iff, beq_eq_false_iff_ne] at other
    rw [closeFrom?]
    all_goals simp [other]
  brace depth b brace := by
    rcases isBrace_iff.mp brace with rfl | rfl
    · exact .inr ⟨depth + 1, fun t => by rw [closeFrom?]⟩
    · cases depth with
      | zero => exact .inl fun t => rfl
      | succ depth => exact .inr ⟨depth, fun t => rfl⟩
  ends found := eq_append_of_closeFrom? found

theorem toBrace_splitOnce? : ToBrace fun (_ : Unit) => splitOnce? '}' where
  nil _ := rfl
  plain _ c other t := by
    simp only [isBrace, Bool.or_eq_false_iff, beq_eq_false_iff_ne] at other
    rw [splitOnce?, if_neg other.2]
  brace _ b brace := by
    rcases isBrace_iff.mp brace with rfl | rfl
    · exact .inr ⟨(), fun t => rfl⟩
    · exact .inl fun t => rfl
  ends found := (splitOnce?_eq_some_iff.mp found).2

theorem ToBrace.uncommented (reader : ToBrace read) (whole : Separate terms phase previous t)
    (state : σ) :
    read state (uncommentedFrom phase.isCommented t) =
      (read state t).map fun (inside, rest) =>
        (uncommentedFrom phase.isCommented inside, uncommentedFrom false rest) := by
  induction t generalizing state phase previous with
  | nil => simp [uncommentedFrom, reader.nil]
  | cons c t ih =>
    by_cases brace : isBrace c
    · obtain ⟨behind, front⟩ := whole.of_brace brace
      have rest := ih behind
      simp only [isCommented] at rest
      rw [front]
      rcases reader.brace state brace with stops | ⟨next, goes⟩
      · simp [stops, uncommentedFrom]
      · simp only [goes, rest, Option.map_map, Function.comp_def, front]
    · rw [Bool.not_eq_true] at brace
      obtain ⟨next, step, later⟩ := separate_cons.mp whole
      obtain ⟨kept, one, shown⟩ := exists_kept step
      have front : read state (kept ++ uncommentedFrom next.isCommented t) =
          (read state (uncommentedFrom next.isCommented t)).map fun (inside, rest) =>
            (kept ++ inside, rest) := by
        rcases one with rfl | ⟨rfl, -⟩
        · exact reader.plain state brace _
        · simp
      rw [shown t rfl, front, ih later state, reader.plain state brace, Option.map_map,
        Option.map_map]
      refine Option.map_congr fun parts found => ?_
      obtain ⟨inside, rest⟩ := parts
      have opens : opensComment (c :: inside) = opensComment (c :: t) := by
        rw [reader.ends found, ← List.cons_append]
        exact (opensComment_append (parted_of_mark (by decide) (by decide) _ _) (by simp)).symm
      simp [shown inside opens]

theorem ToBrace.separate (reader : ToBrace read) (whole : Separate terms phase previous t) (state : σ)
    {inside rest : Text} (found : read state t = some (inside, rest)) :
    Separate terms phase previous inside ∧ Separate terms .free none rest := by
  rw [reader.ends found] at whole
  exact ⟨(whole.brace (by decide)).1, (whole.brace (by decide)).2.1⟩

end Brace

def Text.Uncommented (terms : Vocabulary) (t t' : Text) : Prop :=
  Separate terms .free none t' ∧ t = uncommentedFrom false t'

namespace Block

variable {terms : Vocabulary} {word t : Text} {previous : Option Char}

def uncommented (block : Block) : Block :=
  ⟨block.name, uncommentedFrom false block.body⟩

theorem heads_opener (keyword : word ∈ terms.words) : (opener word).Heads terms := by
  intro previous t name inside read
  obtain ⟨begins, gap, gap', nonempty, blanks, named, every, blanks', split⟩ :=
    opener_eq_some_iff.mp read
  have free : Braceless (word ++ gap ++ name ++ gap') := by
    simp only [braceless_append]
    exact ⟨⟨⟨braceless_keyword keyword, braceless_blanks blanks⟩, braceless_name every⟩,
      braceless_blanks blanks'⟩
  refine ⟨?_, _, free, split, fun other => ?_⟩
  · obtain ⟨c, gap, rfl⟩ := List.exists_cons_of_ne_nil nonempty
    simp only [split, List.append_assoc]
    refine keywordAt_of_mem begins keyword ?_
    simp [beginsWord, isWord_of_isBlank (blanks c (by simp))]
  · exact opener_eq_some_iff.mpr
      ⟨begins, gap, gap', nonempty, blanks, named, every, blanks', rfl⟩

theorem lastOf_block {before head inside body source after : Text}
    (split : t = before ++ (head ++ '{' :: inside)) (closed : Brace.close? inside = some (body, after))
    (whole : t = before ++ source ++ after) (previous : Option Char) :
    lastOf previous (before ++ source) = some '}' := by
  have behind := Brace.eq_append_of_closeFrom? closed
  have same : source ++ after = (head ++ '{' :: body ++ ['}']) ++ after := by
    rw [split, behind, List.append_assoc, List.append_cancel_left_eq] at whole
    simp [← whole]
  rw [List.append_cancel_right same]
  simp

def Scan.cutAt (before : Text) (block : Block) (source : Text) (rest : Scan) : Scan :=
  ⟨before.map .kept ++ .found block source :: rest.pieces, rest.unclosed⟩

theorem scanFrom_uncommented_cases (keyword : word ∈ terms.words)
    (whole : Separate terms .free previous t) :
    (∃ unclosed, scanFrom word 0 previous t = ⟨t.map .kept, unclosed⟩ ∧
      scanFrom word 0 previous (uncommentedFrom false t) =
        ⟨(uncommentedFrom false t).map .kept, unclosed⟩) ∨
    ∃ before block source source' after, Separate terms .free none block.body ∧
      Separate terms .free none after ∧ after.length < t.length ∧
      Separate terms .free previous (before ++ after) ∧ uncommentedFrom false (before ++ after) =
        uncommentedFrom false before ++ uncommentedFrom false after ∧
      scanFrom word 0 previous t =
        Scan.cutAt before block source (scanFrom word 0 (some '}') after) ∧
      scanFrom word 0 previous (uncommentedFrom false t) =
        Scan.cutAt (uncommentedFrom false before) block.uncommented source'
          (scanFrom word 0 (some '}') (uncommentedFrom false after)) := by
  have steady := (heads_opener keyword).steady
  have both := steady.firstFrom? whole fun _ => rfl
  simp only [isCommented, id] at both
  have cases' := scanFrom_cases word previous (uncommentedFrom false t)
  rw [both] at cases'
  obtain ⟨missing, scanned⟩ | ⟨found, first, closing⟩ := scanFrom_cases word previous t
  · simp only [missing, Option.map_none, true_and, reduceCtorEq, false_and, exists_false,
      or_false] at cases'
    exact .inl ⟨none, scanned, cases'⟩
  · simp only [first, Option.map_some, reduceCtorEq, false_and, false_or, Option.some.injEq,
      exists_eq_left'] at cases'
    rw [first, Option.map_some] at both
    obtain ⟨head, split, -, -, behind, cut⟩ := steady.around (by decide) whole first
    have closes := Brace.toBrace_closeFrom?.uncommented behind 0
    simp only [isCommented] at closes
    obtain ⟨unclosed, scanned⟩ | ⟨body, source, after, closed, nonempty, whole', scanned⟩ := closing
    · rw [Brace.close?] at unclosed
      rw [Brace.close?, closes, unclosed] at cases'
      simp only [Option.map_none, true_and, reduceCtorEq, false_and, exists_false,
        or_false] at cases'
      exact .inl ⟨some found.value, scanned, cases'⟩
    · rw [Brace.close?] at closed
      rw [closed, Option.map_some] at closes
      obtain ⟨missing, -⟩ | ⟨body', source', after', closed', -, whole'', scanned'⟩ := cases'
      · rw [Brace.close?, closes] at missing
        contradiction
      · rw [Brace.close?, closes] at closed'
        obtain ⟨rfl, rfl⟩ := Prod.mk.inj (Option.some.inj closed')
        obtain ⟨apart', left⟩ := Brace.toBrace_closeFrom?.separate behind 0 closed
        obtain ⟨joined, kept⟩ := cut after left
        obtain ⟨here, split', read'⟩ := Pattern.firstFrom?_eq_some both
        obtain ⟨head', rfl⟩ := steady.ends read'
        rw [lastOf_block split closed whole'] at scanned
        rw [lastOf_block split' closes whole''] at scanned'
        have shorter : after.length < t.length := by
          have positive := List.length_pos_iff.mpr nonempty
          rw [whole']
          simp only [List.length_append]
          omega
        exact .inr ⟨found.before, ⟨found.value, body⟩, source, source', after, apart',
          left, shorter, joined, kept, scanned, scanned'⟩

/-- A scan finds the same blocks in a text without its comments, and their comments are separate. -/
theorem scanFrom_uncommented (keyword : word ∈ terms.words) (whole : Separate terms .free previous t) :
    (scanFrom word 0 previous (uncommentedFrom false t)).unclosed =
        (scanFrom word 0 previous t).unclosed ∧
      (scanFrom word 0 previous (uncommentedFrom false t)).pieces.filterMap Piece.value? =
        ((scanFrom word 0 previous t).pieces.filterMap Piece.value?).map uncommented ∧
      ∀ block ∈ (scanFrom word 0 previous t).pieces.filterMap Piece.value?,
        Separate terms .free none block.body := by
  induction size : t.length using Nat.strong_induction_on generalizing t previous with
  | _ n ih =>
    subst size
    obtain ⟨unclosed, scanned, scanned'⟩ | ⟨before, block, source, source', after, apart, behind,
      shorter, -, -, scanned, scanned'⟩ := scanFrom_uncommented_cases keyword whole
    · rw [scanned, scanned']
      simp only [Piece.filterMap_value?_kept]
      exact ⟨trivial, rfl, by simp⟩
    · have left := (separate_mark (b := '}') (by decide) (by decide)).mpr behind
      obtain ⟨unclosed, blocks, each⟩ := ih after.length shorter left rfl
      rw [scanned, scanned']
      simp only [Scan.cutAt, List.filterMap_append, Piece.filterMap_value?_kept, List.nil_append,
        List.filterMap_cons, Piece.value?, List.map_cons, blocks]
      exact ⟨unclosed, trivial, List.forall_mem_cons.mpr ⟨apart, each⟩⟩

theorem withoutFirst_cutAt (before : Text) (block : Block) (source after : Text)
    (previous : Option Char) :
    Piece.withoutFirst (Scan.cutAt before block source (scanFrom word 0 previous after)).pieces =
      before ++ after := by
  rw [Scan.cutAt]
  induction before with
  | nil => simp [Piece.withoutFirst, flatMap_source_scanFrom]
  | cons c before ih => simpa [Piece.withoutFirst] using ih

theorem withoutFirst_uncommented (keyword : word ∈ terms.words)
    (whole : Separate terms .free previous t) :
    Separate terms .free previous (Piece.withoutFirst (scanFrom word 0 previous t).pieces) ∧
      Piece.withoutFirst (scanFrom word 0 previous (uncommentedFrom false t)).pieces =
        uncommentedFrom false (Piece.withoutFirst (scanFrom word 0 previous t).pieces) := by
  obtain ⟨unclosed, scanned, scanned'⟩ | ⟨before, block, source, source', after, -, -, -, joined,
    kept, scanned, scanned'⟩ := scanFrom_uncommented_cases keyword whole
  · rw [scanned, scanned', Piece.withoutFirst_kept, Piece.withoutFirst_kept]
    exact ⟨whole, rfl⟩
  · rw [scanned, scanned', withoutFirst_cutAt, withoutFirst_cutAt, kept]
    exact ⟨joined, rfl⟩

end Block

namespace RecipeBody

theorem heads_sectionOpener {terms : Vocabulary} {keyword : Text} (member : keyword ∈ terms.words) :
    (sectionOpener keyword).Heads terms := by
  intro previous t _ inside read
  obtain ⟨begins, gap, blanks, split⟩ := sectionOpener_eq_some_iff.mp read
  refine ⟨?_, keyword ++ gap, ?_, split, fun other => ?_⟩
  · rw [split, List.append_assoc]
    exact keywordAt_of_mem begins member (beginsWord_gap blanks (by decide) inside)
  · exact braceless_append.mpr ⟨braceless_keyword member, braceless_blanks blanks⟩
  · exact sectionOpener_eq_some_iff.mpr ⟨begins, gap, blanks, rfl⟩

theorem steady_mapper :
    mapper.Steady keywords Block.uncommented
      (fun block => Separate keywords .free none block.body) '}' := by
  have heads := @Block.heads_opener keywords "itemMapper".toList (by decide)
  constructor
  case keyword =>
    intro previous t rest block read
    obtain ⟨inside, head, -⟩ := mapper_eq_some_iff.mp read
    exact (heads _ _ _ _ head).1
  case ends =>
    intro previous t rest block read
    obtain ⟨inside, head, cut⟩ := mapper_eq_some_iff.mp read
    obtain ⟨-, s, -, rfl, -⟩ := heads _ _ _ _ head
    obtain ⟨-, rfl⟩ := splitOnce?_eq_some_iff.mp cut
    exact ⟨s ++ '{' :: block.body, by simp⟩
  case reads =>
    intro previous t whole
    rw [mapper, mapper, heads.steady.reads whole]
    cases read : Block.opener "itemMapper".toList previous t with
    | none => rfl
    | some found =>
      obtain ⟨-, s, -, rfl, -⟩ := heads _ _ _ _ read
      have cut := Brace.toBrace_splitOnce?.uncommented (whole.brace (by decide)).2.1 ()
      simp only [isCommented] at cut
      simp only [Option.map_some, Option.bind_eq_bind, Option.bind_some, cut, id]
      cases splitOnce? '}' found.2 <;> rfl
  case sound =>
    intro previous t rest block whole read
    obtain ⟨inside, head, cut⟩ := mapper_eq_some_iff.mp read
    obtain ⟨-, s, -, rfl, -⟩ := heads _ _ _ _ head
    have behind := (whole.brace (by decide)).2.1
    exact (Brace.toBrace_splitOnce?.separate behind () cut).1

theorem rel_cutSection?_uncommented {terms : Vocabulary} {keyword t : Text}
    (member : keyword ∈ terms.words) (whole : Separate terms .free none t) :
    Option.Rel (AlikeParts (Text.Uncommented terms)) (cutSection? keyword (uncommentedFrom false t))
      (cutSection? keyword t) := by
  have steady := (heads_sectionOpener member).steady
  have both := steady.firstFrom? whole fun _ => rfl
  simp only [isCommented] at both
  rw [cutSection?, cutSection?, Pattern.first?, Pattern.first?, both]
  cases first : (sectionOpener keyword).firstFrom? none t with
  | none => exact .none
  | some found =>
    obtain ⟨-, -, -, -, behind, cut⟩ := steady.around (by decide) whole first
    have closes := Brace.toBrace_closeFrom?.uncommented behind 0
    simp only [isCommented] at closes
    simp only [Option.map_some, Option.bind_eq_bind, Option.bind_some, Brace.close?, closes]
    cases closed : Brace.closeFrom? 0 found.after with
    | none => exact .none
    | some parts =>
      obtain ⟨apart, left⟩ := Brace.toBrace_closeFrom?.separate behind 0 closed
      obtain ⟨joined, kept⟩ := cut _ left
      exact .some ⟨⟨apart, rfl⟩, joined, kept.symm⟩

end RecipeBody

theorem Block.agree_pieces_uncommented {terms : Vocabulary} {keyword : Keyword} {t : Text}
    (known : keyword.word.toList ∈ terms.words) (whole : Separate terms .free none t) :
    WithIssues.Agree (AlikePieces (Text.Uncommented terms)) (pieces keyword (uncommentedFrom false t))
      (pieces keyword t) := by
  obtain ⟨unclosed, blocks, each⟩ := scanFrom_uncommented known whole
  obtain ⟨left, cut⟩ := withoutFirst_uncommented known whole
  refine ⟨?_, ?_, left, cut⟩
  · rw [pieces, pieces, unclosed]
  · rw [pieces, pieces, blocks, List.forall₂_map_left_iff]
    exact List.forall₂_same.mpr fun block member => ⟨rfl, each block member, rfl⟩

/-- No reader sees comments that are separate. -/
theorem unseen_uncommented : Unseen (Text.Uncommented keywords) where
  properties {_ t'} texts := by
    rw [texts.2, (uncommentedFrom_eq t').1, Property.all_uncommented]
  lines {_ t'} texts := by
    rw [texts.2, (uncommentedFrom_eq t').1, Section.contentLines_uncommented]
  mappers texts := by
    obtain ⟨values, apart, left, rest⟩ := RecipeBody.steady_mapper.piecesFrom (by decide) texts.1
    obtain rfl := texts.2
    refine ⟨?_, rest, left⟩
    rw [Pattern.takeAll, Pattern.takeAll, Pattern.pieces, Pattern.pieces, values,
      List.forall₂_map_left_iff]
    exact List.forall₂_same.mpr fun block member => ⟨rfl, apart block member, rfl⟩
  sections known texts := by
    obtain rfl := texts.2
    have members : ∀ keyword ∈ ["inputs", "outputs"], keyword.toList ∈ keywords.words := by decide
    exact RecipeBody.rel_cutSection?_uncommented (members _ known) texts.1
  blocks known texts := by
    obtain rfl := texts.2
    have members : ∀ keyword ∈ [.module, .xuiSkin, .entity, Keyword.component],
        keyword.word.toList ∈ keywords.words := by decide
    exact Block.agree_pieces_uncommented (members _ known) texts.1

end CraftScript
