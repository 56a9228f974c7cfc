import CraftScript.Comment
import CraftScript.Proofs.Concatenation
import CraftScript.Proofs.Bytewise.Cuts
import Mathlib.Data.Nat.PSub

/-! Scanners that walk bytes and cut the text at the positions they have counted. A cut that does not
fit the text and a depth counted down at zero leave such a scanner without an answer. Both scanners
are shown to have one for every text, and the one that the scanner of characters gives. -/
namespace CraftScript.Bytewise

open Text

structure Stripping where
  out : Text := []
  depth : Nat := 0
  openedAt : Nat := 0
  copyFrom : Nat := 0

namespace Stripping

def opens? (t : Text) (i : Nat) (s : Stripping) : Option Stripping :=
  if s.depth = 0 then do
    let kept ← t.slice? ⟨s.copyFrom, i⟩
    return { s with out := s.out ++ kept, depth := 1, openedAt := i }
  else some { s with depth := s.depth + 1 }

def closes? (i : Nat) (s : Stripping) : Option Stripping := do
  let depth ← s.depth.ppred
  return { s with depth, copyFrom := if depth = 0 then i + 2 else s.copyFrom }

def finish? (t : Text) (s : Stripping) : Option Comment.Uncommented :=
  if s.depth = 0 then do
    let kept ← t.dropBytes? s.copyFrom
    return ⟨s.out ++ kept, none⟩
  else some ⟨s.out, some s.openedAt⟩

end Stripping

def walk? (t : Text) : Stripping → (i : Nat) → List UInt8 → Option Stripping
  | s, i, a :: b :: bytes =>
    if a = '/'.toUInt8 ∧ b = '*'.toUInt8 then do
      walk? t (← s.opens? t i) (i + 2) bytes
    else if 0 < s.depth ∧ a = '*'.toUInt8 ∧ b = '/'.toUInt8 then do
      walk? t (← s.closes? i) (i + 2) bytes
    else walk? t s (i + 1) (b :: bytes)
  | s, _, _ => some s

def strip? (t : Text) : Option Comment.Uncommented := do
  (← walk? t {} 0 t.bytes).finish? t

theorem walk?_pass (t : Text) (s : Stripping) (i : Nat) {a : UInt8} {bytes : List UInt8}
    (notOpen : ¬ (a = '/'.toUInt8 ∧ bytes.head? = some '*'.toUInt8))
    (notClose : ¬ (0 < s.depth ∧ a = '*'.toUInt8 ∧ bytes.head? = some '/'.toUInt8)) :
    walk? t s i (a :: bytes) = walk? t s (i + 1) bytes := by
  cases bytes with
  | nil => simp only [walk?]
  | cons b bytes =>
    rw [List.head?_cons, Option.some.injEq] at notOpen notClose
    rw [walk?, if_neg notOpen, if_neg notClose]

theorem walk?_plain (t : Text) (s : Stripping) (i : Nat) {plain : List UInt8} (bytes : List UInt8)
    (noSlash : '/'.toUInt8 ∉ plain) (noStar : '*'.toUInt8 ∉ plain) :
    walk? t s i (plain ++ bytes) = walk? t s (i + plain.length) bytes := by
  induction plain generalizing i with
  | nil => rfl
  | cons a plain ih =>
    rw [List.mem_cons, not_or] at noSlash noStar
    rw [List.cons_append, walk?_pass t s i (fun sign => noSlash.1 sign.1.symm)
      (fun sign => noStar.1 sign.2.1.symm), ih (i + 1) noSlash.2 noStar.2, List.length_cons]
    congr 1
    omega

theorem walk?_char (t : Text) (s : Stripping) (i : Nat) {c : Char} {rest : Text}
    (notOpen : ¬ (c = '/' ∧ rest.head? = some '*'))
    (notClose : ¬ (0 < s.depth ∧ c = '*' ∧ rest.head? = some '/')) :
    walk? t s i (bytes (c :: rest)) = walk? t s (i + c.utf8Size) rest.bytes := by
  have slash : IsAscii '/' := by decide
  have star : IsAscii '*' := by decide
  rw [← head?_bytes_eq_some_iff star] at notOpen
  rw [← head?_bytes_eq_some_iff slash] at notClose
  by_cases isSlash : c = '/'
  · subst isSlash
    rw [bytes_cons, encode_ascii slash]
    exact walk?_pass t s i (fun sign => notOpen ⟨rfl, sign.2⟩)
      (fun sign => absurd sign.2.1 (by decide))
  by_cases isStar : c = '*'
  · subst isStar
    rw [bytes_cons, encode_ascii star]
    exact walk?_pass t s i (fun sign => absurd sign.1 (by decide))
      (fun sign => notClose ⟨sign.1, rfl, sign.2.2⟩)
  · rw [bytes_cons, walk?_plain t s i _ (not_mem_encode slash isSlash) (not_mem_encode star isStar),
      String.length_utf8EncodeChar]

theorem walk?_opens {t : Text} {s s' : Stripping} {i : Nat} (rest : Text)
    (opened : s.opens? t i = some s') :
    walk? t s i (bytes ('/' :: '*' :: rest)) = walk? t s' (i + 2) rest.bytes := by
  have signs : bytes ('/' :: '*' :: rest) = '/'.toUInt8 :: '*'.toUInt8 :: rest.bytes := by
    rw [bytes_cons, bytes_cons, encode_ascii (by decide), encode_ascii (by decide)]
    rfl
  rw [signs, walk?, if_pos ⟨rfl, rfl⟩, opened]
  rfl

theorem walk?_closes {t : Text} {s s' : Stripping} {i : Nat} (rest : Text) (deep : 0 < s.depth)
    (closed : s.closes? i = some s') :
    walk? t s i (bytes ('*' :: '/' :: rest)) = walk? t s' (i + 2) rest.bytes := by
  have signs : bytes ('*' :: '/' :: rest) = '*'.toUInt8 :: '/'.toUInt8 :: rest.bytes := by
    rw [bytes_cons, bytes_cons, encode_ascii (by decide), encode_ascii (by decide)]
    rfl
  rw [signs, walk?, if_neg (by decide), if_pos ⟨deep, rfl, rfl⟩, closed]
  rfl

private theorem not_sign {c first second : Char} {rest : Text}
    (other : ∀ behind, c = first → rest = second :: behind → False) :
    ¬ (c = first ∧ rest.head? = some second) := by
  rintro ⟨same, next⟩
  obtain ⟨behind, split⟩ := List.head?_eq_some_iff.mp next
  exact other behind same split

/-- Where a walk stands: `rest` is left from byte `offset` on. Outside comments it has passed `copied`
since byte `copyFrom`; inside there is nothing to copy. -/
structure Stands (t : Text) (depth offset copyFrom : Nat) (old copied rest : Text) : Prop where
  whole : t = old ++ copied ++ rest
  here : offset = byteSize (old ++ copied)
  outside : depth = 0 → copyFrom = byteSize old
  inside : depth ≠ 0 → copied = []

namespace Stands

variable {t old copied rest : Text} {depth offset copyFrom : Nat} {c : Char}

theorem opening (stands : Stands t depth offset copyFrom old copied ('/' :: '*' :: rest)) :
    Stands t (depth + 1) (offset + 2) copyFrom (old ++ copied ++ ['/', '*']) [] rest := by
  refine ⟨by simp [stands.whole], ?_, by simp, fun _ => rfl⟩
  rw [List.append_nil, byteSize_append (old ++ copied), stands.here]
  rfl

theorem closing (stands : Stands t (depth + 1) offset copyFrom old copied ('*' :: '/' :: rest)) :
    Stands t depth (offset + 2) (if depth = 0 then offset + 2 else copyFrom)
      (old ++ copied ++ ['*', '/']) [] rest := by
  have next : offset + 2 = byteSize (old ++ copied ++ ['*', '/']) := by
    rw [byteSize_append (old ++ copied), stands.here]
    rfl
  refine ⟨by simp [stands.whole], by rw [List.append_nil, next], ?_, fun _ => rfl⟩
  rintro rfl
  rw [if_pos rfl, next]

theorem passing_outside (stands : Stands t 0 offset copyFrom old copied (c :: rest)) :
    Stands t 0 (offset + c.utf8Size) copyFrom old (copied ++ [c]) rest :=
  ⟨by simp [stands.whole], by rw [← byteSize_step, stands.here], stands.outside, by simp⟩

theorem passing_inside (stands : Stands t (depth + 1) offset copyFrom old copied (c :: rest)) :
    Stands t (depth + 1) (offset + c.utf8Size) copyFrom (old ++ (copied ++ [c])) [] rest := by
  refine ⟨by simp [stands.whole], ?_, by simp, fun _ => rfl⟩
  rw [List.append_nil, ← byteSize_step, stands.here]

theorem opens? (stands : Stands t depth offset copyFrom old copied rest) (out : Text)
    (opened : Nat) : Stripping.opens? t offset ⟨out, depth, opened, copyFrom⟩ =
      some ⟨out ++ copied, depth + 1, if depth = 0 then offset else opened, copyFrom⟩ := by
  cases depth with
  | zero =>
    have kept : t.slice? ⟨copyFrom, offset⟩ = some copied := by
      rw [stands.outside rfl, stands.here, slice?_eq_some stands.whole]
    rw [Stripping.opens?, if_pos rfl, kept]
    rfl
  | succ depth =>
    rw [stands.inside (Nat.succ_ne_zero depth), List.append_nil]
    rfl

/-- The walk ends as the stripping of the characters that are left does. -/
theorem walk? (stands : Stands t depth offset copyFrom old copied rest) (out : Text)
    (opened : Nat) : (walk? t ⟨out, depth, opened, copyFrom⟩ offset rest.bytes).bind
        (Stripping.finish? t) =
      some ⟨out ++ copied ++ (Comment.stripFrom depth opened offset rest).text,
        (Comment.stripFrom depth opened offset rest).unclosedAt⟩ := by
  fun_induction Comment.stripFrom depth opened offset rest generalizing out old copied copyFrom with
  | case1 opened offset =>
    have kept : t.dropBytes? copyFrom = some copied := by
      rw [stands.outside rfl, stands.whole, List.append_nil, dropBytes?_append]
    simp [Bytewise.walk?, Stripping.finish?, kept]
  | case2 offset depth opened =>
    simp [Bytewise.walk?, Stripping.finish?, stands.inside (Nat.succ_ne_zero depth)]
  | case3 opened offset rest ih =>
    rw [walk?_opens rest (stands.opens? out opened), if_pos rfl, ih stands.opening, List.append_nil]
  | case4 depth opened offset rest ih =>
    rw [walk?_opens rest (stands.opens? out opened), if_neg (Nat.succ_ne_zero depth),
      ih stands.opening, List.append_nil]
  | case5 depth opened offset rest ih =>
    have closes : Stripping.closes? offset ⟨out, depth + 1, opened, copyFrom⟩ =
        some ⟨out, depth, opened, if depth = 0 then offset + 2 else copyFrom⟩ := rfl
    rw [walk?_closes rest (Nat.succ_pos _) closes, ih stands.closing,
      stands.inside (Nat.succ_ne_zero depth)]
  | case6 opened offset c rest notOpen later =>
    rename_i ih
    rw [walk?_char t _ offset (not_sign notOpen) (by simp), ih stands.passing_outside]
    simp [later]
  | case7 depth opened offset c rest notOpen notClose ih =>
    rw [walk?_char t _ offset (not_sign notOpen) (fun sign => not_sign notClose sign.2),
      ih stands.passing_inside, stands.inside (Nat.succ_ne_zero depth)]

end Stands

theorem strip?_eq (t : Text) : strip? t = some (Comment.strip t) := by
  have start : Stands t 0 0 0 [] [] t := ⟨rfl, rfl, fun _ => rfl, fun _ => rfl⟩
  exact start.walk? [] 0

def closing? (t : Text) (opened : Nat) :
    (depth i : Nat) → List UInt8 → Option (Option (Text × Nat))
  | _, _, [] => some none
  | depth, i, b :: bytes =>
    if b = '{'.toUInt8 then closing? t opened (depth + 1) (i + 1) bytes
    else if b = '}'.toUInt8 then do
      let depth ← depth.ppred
      if depth = 0 then
        let block ← t.slice? ⟨opened, i + 1⟩
        return some (block, i + 1)
      else closing? t opened depth (i + 1) bytes
    else closing? t opened depth (i + 1) bytes

def balanced? (t : Text) (start : Nat) : Option (Option (Text × Nat)) :=
  match t.dropBytes? start with
  | none => some none
  | some tail =>
    if '{' ∈ tail then do
      let opened := start + byteSize (tail.takeWhile (· ≠ '{'))
      guard (opened ≤ t.bytes.length)
      closing? t opened 0 opened (t.bytes.drop opened)
    else some none

theorem closing?_plain (t : Text) (opened depth i : Nat) {plain : List UInt8} (bytes : List UInt8)
    (noOpen : '{'.toUInt8 ∉ plain) (noClose : '}'.toUInt8 ∉ plain) :
    closing? t opened depth i (plain ++ bytes) =
      closing? t opened depth (i + plain.length) bytes := by
  induction plain generalizing i with
  | nil => rfl
  | cons b plain ih =>
    rw [List.mem_cons, not_or] at noOpen noClose
    rw [List.cons_append, closing?, if_neg (Ne.symm noOpen.1), if_neg (Ne.symm noClose.1),
      ih (i + 1) noOpen.2 noClose.2, List.length_cons]
    congr 1
    omega

theorem closing?_open (t : Text) (opened depth i : Nat) (rest : Text) :
    closing? t opened depth i (bytes ('{' :: rest)) =
      closing? t opened (depth + 1) (i + 1) rest.bytes := by
  rw [bytes_cons, encode_ascii (by decide), List.singleton_append, closing?, if_pos rfl]

theorem closing?_close (t : Text) (opened depth i : Nat) (rest : Text) :
    closing? t opened (depth + 2) i (bytes ('}' :: rest)) =
      closing? t opened (depth + 1) (i + 1) rest.bytes := by
  rw [bytes_cons, encode_ascii (by decide), List.singleton_append, closing?, if_neg (by decide),
    if_pos rfl, Nat.ppred_succ]
  rfl

theorem closing?_last {t block : Text} {opened i : Nat} (rest : Text)
    (taken : t.slice? ⟨opened, i + 1⟩ = some block) :
    closing? t opened 1 i (bytes ('}' :: rest)) = some (some (block, i + 1)) := by
  rw [bytes_cons, encode_ascii (by decide), List.singleton_append, closing?, if_neg (by decide),
    if_pos rfl, Nat.ppred_succ]
  simp [taken]

theorem closing?_char (t : Text) (opened depth i : Nat) {c : Char} (rest : Text)
    (notOpen : c ≠ '{') (notClose : c ≠ '}') :
    closing? t opened depth i (bytes (c :: rest)) =
      closing? t opened depth (i + c.utf8Size) rest.bytes := by
  rw [bytes_cons, closing?_plain t opened depth i _ (not_mem_encode (by decide) notOpen)
    (not_mem_encode (by decide) notClose), String.length_utf8EncodeChar]

/-- Inside an open block the walk goes on as the matching of the characters left does. -/
theorem closing?_eq {t : Text} (before : Text) (depth : Nat) (rest front : Text)
    (whole : t = before ++ front ++ rest) :
    closing? t (byteSize before) (depth + 1) (byteSize (before ++ front)) rest.bytes =
      some ((Brace.closeFrom? depth rest).map fun (inside, after) =>
        (front ++ inside ++ ['}'], byteSize t - byteSize after)) := by
  fun_induction Brace.closeFrom? depth rest generalizing front with
  | case1 depth => rfl
  | case2 rest =>
    have regrouped : t = before ++ (front ++ ['}']) ++ rest := by simp [whole]
    have next := byteSize_step_ascii before front (c := '}') (by decide)
    have block : t.slice? ⟨byteSize before, byteSize (before ++ front) + 1⟩ =
        some (front ++ ['}']) := by
      rw [next, slice?_eq_some regrouped]
    have stop : byteSize (before ++ front) + 1 = byteSize t - byteSize rest := by
      rw [next, byteSize_sub regrouped]
    rw [closing?_last rest block, stop]
    simp
  | case3 depth rest ih =>
    rw [closing?_close, byteSize_step_ascii before front (c := '}') (by decide),
      ih _ (by simp [whole]), Option.map_map]
    simp [Function.comp_def]
  | case4 depth rest ih =>
    rw [closing?_open, byteSize_step_ascii before front (c := '{') (by decide),
      ih _ (by simp [whole]), Option.map_map]
    simp [Function.comp_def]
  | case5 depth c rest notLast notClose notOpen ih =>
    -- A closing brace is excluded at depth zero and at a greater depth by different cases.
    have plain : c ≠ '}' := by
      rintro rfl
      cases depth with
      | zero => exact notLast rfl rfl
      | succ depth => exact notClose depth rfl rfl
    rw [closing?_char t _ _ _ rest notOpen plain, byteSize_step, ih _ (by simp [whole]),
      Option.map_map]
    simp [Function.comp_def]

private theorem plain_before {before : Text} (absent : '{' ∉ before) :
    ∀ c ∈ before, decide (c ≠ '{') := by
  intro c member
  exact decide_eq_true fun same => absent (same ▸ member)

private theorem stops_brace (inside : Text) : Stops (· ≠ '{') ('{' :: inside) :=
  stops_cons (by decide) inside

theorem balanced?_first {t passed before inside : Text} (absent : '{' ∉ before)
    (whole : t = passed ++ before ++ '{' :: inside) :
    balanced? t (byteSize passed) = some ((Brace.close? inside).map fun (inner, after) =>
      (Brace.braced inner, byteSize t - byteSize after)) := by
  have tail : t.dropBytes? (byteSize passed) = some (before ++ '{' :: inside) := by
    rw [whole, List.append_assoc, dropBytes?_append]
  have bound : guard (byteSize (passed ++ before) ≤ t.bytes.length) = some () := by
    rw [guard_eq_some_iff, length_bytes, whole, byteSize_append (passed ++ before)]
    omega
  have left : t.bytes.drop (byteSize (passed ++ before)) = bytes ('{' :: inside) := by
    rw [whole, drop_bytes]
  have next : byteSize (passed ++ before) + 1 = byteSize (passed ++ before ++ ['{']) := by
    rw [List.append_assoc, byteSize_step_ascii passed before (c := '{') (by decide)]
  have opens : '{' ∈ before ++ '{' :: inside := by simp
  have first := takeWhile_append_stop (plain_before absent) (stops_brace inside)
  simp only [balanced?, tail, opens, if_true, first, ← byteSize_append, bound, left, closing?_open,
    next, Option.bind_eq_bind, Option.bind_some]
  rw [closing?_eq (passed ++ before) 0 inside ['{'] (by simp [whole])]
  rfl

theorem balanced?_eq (t : Text) (start : Nat) :
    balanced? t start = some ((Brace.blockAt? t start).map fun (inside, stop) =>
      (Brace.braced inside, stop)) := by
  cases cut : t.dropBytes? start with
  | none => simp [balanced?, Brace.blockAt?, cut]
  | some tail =>
    by_cases opens : '{' ∈ tail
    · obtain ⟨before, inside, rfl, absent⟩ := List.eq_append_cons_of_mem opens
      have block : Brace.firstBlock? (before ++ '{' :: inside) = Brace.close? inside := by
        rw [Brace.firstBlock?, dropWhile_append_stop (plain_before absent) (stops_brace inside)]
      obtain ⟨⟨passed, _⟩, split, rfl⟩ := Option.map_eq_some_iff.mp cut
      obtain ⟨whole, rfl⟩ := eq_append_of_splitBytes? split
      rw [balanced?_first absent (by simpa using whole)]
      cases closed : Brace.close? inside <;> simp [Brace.blockAt?, cut, block, closed]
    · have block : Brace.firstBlock? tail = none := by
        rw [Brace.firstBlock?, List.dropWhile_eq_nil_iff.mpr (plain_before opens)]
      simp [balanced?, Brace.blockAt?, cut, opens, block]

theorem inner_braced (inside : Text) : Brace.inner (Brace.braced inside) = inside := by
  simp [Brace.braced, Brace.inner]

end CraftScript.Bytewise
