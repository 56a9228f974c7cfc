import CraftScript.Block
import CraftScript.Proofs.Texts

/-! Searches taken stretch by stretch. A search passes a stretch in which its pattern reads nothing,
and takes up what the pattern reads in one piece. -/
namespace CraftScript

namespace Text

def lastOf (previous : Option Char) (t : Text) : Option Char :=
  t.getLast?.or previous

@[simp] theorem lastOf_nil (previous : Option Char) : lastOf previous [] = previous := by
  simp [lastOf]

@[simp] theorem lastOf_cons (previous : Option Char) (c : Char) (t : Text) :
    lastOf previous (c :: t) = lastOf (some c) t := by
  cases t <;> simp [lastOf, List.getLast?_cons]

@[simp] theorem lastOf_append (previous : Option Char) (s t : Text) :
    lastOf previous (s ++ t) = lastOf (lastOf previous s) t := by
  induction s generalizing previous with
  | nil => simp
  | cons c s ih => simp [ih]

end Text

namespace Piece

variable {α : Type}

@[simp] theorem filterMap_value?_kept (t : Text) :
    (t.map (kept (α := α))).filterMap value? = [] := by
  simp [List.filterMap_map, value?]

@[simp] theorem flatMap_replaced_kept (filler t : Text) :
    (t.map (kept (α := α))).flatMap (replaced filler) = t := by
  simp [List.flatMap_map, replaced]

theorem withoutFirst_kept (t : Text) : withoutFirst (t.map (kept (α := α))) = t := by
  induction t with
  | nil => rfl
  | cons c t ih => rw [List.map_cons, withoutFirst, ih]

end Piece

namespace Pattern

variable {α : Type}

/-- The pattern reads nothing that begins in `t`, where `rest` follows. -/
def Silent (p : Pattern α) (previous : Option Char) (t rest : Text) : Prop :=
  ∀ front c back, t = front ++ c :: back →
    p (Text.lastOf previous front) (c :: (back ++ rest)) = none

theorem silent_nil (p : Pattern α) (previous : Option Char) (rest : Text) :
    Silent p previous [] rest := by
  intro front c back same
  simp at same

theorem silent_cons (p : Pattern α) (previous : Option Char) (c : Char) (t rest : Text) :
    Silent p previous (c :: t) rest ↔
      p previous (c :: (t ++ rest)) = none ∧ Silent p (some c) t rest := by
  constructor
  · intro silent
    refine ⟨by simpa using silent [] c t rfl, fun front d back same => ?_⟩
    have later := silent (c :: front) d back (by simp [same])
    simpa using later
  · rintro ⟨first, later⟩ front d back same
    cases front with
    | nil =>
      obtain ⟨rfl, rfl⟩ := List.cons.inj same
      simpa using first
    | cons e front =>
      obtain ⟨rfl, tail⟩ := List.cons.inj same
      simpa using later front d back tail

theorem silent_append (p : Pattern α) (previous : Option Char) (s t rest : Text) :
    Silent p previous (s ++ t) rest ↔
      Silent p previous s (t ++ rest) ∧ Silent p (Text.lastOf previous s) t rest := by
  induction s generalizing previous with
  | nil => simp [silent_nil]
  | cons c s ih => simp [silent_cons, ih, and_assoc]

theorem piecesFrom_silent {p : Pattern α} {previous : Option Char} {s rest : Text}
    (silent : Silent p previous s rest) :
    piecesFrom p 0 previous (s ++ rest) =
      s.map .kept ++ piecesFrom p 0 (Text.lastOf previous s) rest := by
  induction s generalizing previous with
  | nil => simp
  | cons c s ih =>
    obtain ⟨first, later⟩ := (silent_cons ..).mp silent
    simp [piecesFrom, first, ih later]

theorem piecesFrom_of_silent {p : Pattern α} {previous : Option Char} {t : Text}
    (silent : Silent p previous t []) : piecesFrom p 0 previous t = t.map .kept := by
  have kept := piecesFrom_silent silent
  rwa [List.append_nil, piecesFrom, List.append_nil] at kept

theorem takeAll_of_silent {p : Pattern α} {t : Text} (silent : Silent p none t []) (filler : Text) :
    p.takeAll filler t = ([], t) := by
  rw [takeAll, pieces, piecesFrom_of_silent silent, Piece.filterMap_value?_kept,
    Piece.flatMap_replaced_kept]

theorem firstFrom?_silent {p : Pattern α} {previous : Option Char} {s rest : Text}
    (silent : Silent p previous s rest) :
    firstFrom? p previous (s ++ rest) =
      (firstFrom? p (Text.lastOf previous s) rest).map fun found =>
        { found with before := s ++ found.before } := by
  induction s generalizing previous with
  | nil => simp
  | cons c s ih =>
    obtain ⟨first, later⟩ := (silent_cons ..).mp silent
    simp only [List.cons_append, firstFrom?, first, ih later, Text.lastOf_cons, Option.map_map]
    rfl

theorem silent_of_firstFrom? {p : Pattern α} {previous : Option Char} {t : Text}
    (missing : firstFrom? p previous t = none) : Silent p previous t [] := by
  induction t generalizing previous with
  | nil => exact silent_nil p previous []
  | cons c t ih =>
    rw [firstFrom?] at missing
    split at missing
    · contradiction
    · rename_i first
      rw [Option.map_eq_none_iff] at missing
      rw [silent_cons, List.append_nil]
      exact ⟨first, ih missing⟩

theorem firstFrom?_eq_some {p : Pattern α} {previous : Option Char} {t : Text}
    {found : Occurrence α} (first : firstFrom? p previous t = some found) :
    ∃ here, t = found.before ++ here ∧
      p (Text.lastOf previous found.before) here = some (found.value, found.after) := by
  induction t generalizing previous found with
  | nil => simp [firstFrom?] at first
  | cons c t ih =>
    rw [firstFrom?] at first
    split at first
    next value rest read =>
      obtain rfl := Option.some.inj first
      exact ⟨c :: t, rfl, by simpa using read⟩
    next unread =>
      obtain ⟨later, found', rfl⟩ := Option.map_eq_some_iff.mp first
      obtain ⟨here, rfl, read⟩ := ih found'
      exact ⟨here, rfl, by simpa using read⟩

theorem silent_before_firstFrom? {p : Pattern α} {previous : Option Char} {t here : Text}
    {found : Occurrence α} (first : firstFrom? p previous t = some found)
    (split : t = found.before ++ here) : Silent p previous found.before here := by
  induction t generalizing previous found with
  | nil => simp [firstFrom?] at first
  | cons c t ih =>
    rw [firstFrom?] at first
    split at first
    next value rest read =>
      obtain rfl := Option.some.inj first
      exact silent_nil p previous here
    next unread =>
      obtain ⟨later, found', rfl⟩ := Option.map_eq_some_iff.mp first
      obtain ⟨-, rfl⟩ := List.cons.inj split
      exact (silent_cons ..).mpr ⟨unread, ih found' rfl⟩

theorem piecesFrom_covered (p : Pattern α) (previous : Option Char) (s rest : Text) :
    piecesFrom p s.length previous (s ++ rest) =
      piecesFrom p 0 (Text.lastOf previous s) rest := by
  induction s generalizing previous with
  | nil => simp
  | cons c s ih => simp [piecesFrom, ih]

theorem piecesFrom_found {p : Pattern α} {previous : Option Char} {source rest : Text} {value : α}
    (nonempty : source ≠ []) (read : p previous (source ++ rest) = some (value, rest)) :
    piecesFrom p 0 previous (source ++ rest) =
      .found value source :: piecesFrom p 0 (Text.lastOf previous source) rest := by
  cases source with
  | nil => contradiction
  | cons c source =>
    rw [List.cons_append] at read ⊢
    have covered : (source ++ rest).length - rest.length = source.length := by simp
    simp only [piecesFrom, read, covered, List.take_left, piecesFrom_covered, Text.lastOf_cons]

/-- A search goes up to the first occurrence, and goes on behind it. -/
theorem piecesFrom_of_first {p : Pattern α} {previous : Option Char} {t source : Text}
    {found : Occurrence α} (first : firstFrom? p previous t = some found) (nonempty : source ≠ [])
    (split : t = found.before ++ (source ++ found.after)) :
    piecesFrom p 0 previous t = found.before.map .kept ++ .found found.value source ::
      piecesFrom p 0 (Text.lastOf previous (found.before ++ source)) found.after := by
  obtain ⟨here, whole, read⟩ := firstFrom?_eq_some first
  obtain rfl : here = source ++ found.after := List.append_cancel_left (whole.symm.trans split)
  rw [split, piecesFrom_silent (silent_before_firstFrom? first split),
    piecesFrom_found nonempty read, Text.lastOf_append]

def Contained (p : Pattern α) (previous : Option Char) (s rest : Text) : Prop :=
  ∀ front c back, s = front ++ c :: back →
    p (Text.lastOf previous front) (c :: (back ++ rest)) =
      (p (Text.lastOf previous front) (c :: back)).map fun (value, after) => (value, after ++ rest)

theorem contained_cons {p : Pattern α} {previous : Option Char} {c : Char} {s rest : Text}
    (contained : Contained p previous (c :: s) rest) : Contained p (some c) s rest := by
  intro front d back same
  have later := contained (c :: front) d back (by simp [same])
  simpa using later

theorem piecesFrom_append {p : Pattern α} {previous : Option Char} {s rest : Text} {covered : Nat}
    (contained : Contained p previous s rest) (within : covered ≤ s.length) :
    piecesFrom p covered previous (s ++ rest) =
      piecesFrom p covered previous s ++ piecesFrom p 0 (Text.lastOf previous s) rest := by
  induction s generalizing covered previous with
  | nil =>
    obtain rfl := Nat.le_zero.mp within
    simp [piecesFrom]
  | cons c s ih =>
    have later := @ih (some c)
    cases covered with
    | succ covered =>
      have shorter : covered ≤ s.length := by simpa using within
      simp [piecesFrom, later (contained_cons contained) shorter]
    | zero =>
      have here := contained [] c s rfl
      rw [Text.lastOf_nil] at here
      cases read : p previous (c :: s) with
      | none =>
        rw [read, Option.map_none] at here
        simp [piecesFrom, here, read, later (contained_cons contained)]
      | some found =>
        obtain ⟨value, after⟩ := found
        rw [read, Option.map_some] at here
        have size : (s ++ rest).length - (after ++ rest).length = s.length - after.length := by
          rw [List.length_append, List.length_append, Nat.add_sub_add_right]
        simp only [List.cons_append, piecesFrom, here, read, size, Text.lastOf_cons,
          later (contained_cons contained) (Nat.sub_le _ _),
          List.take_append_of_le_length (Nat.sub_le s.length after.length)]

def values (p : Pattern α) (previous : Option Char) (t : Text) : List α :=
  (p.piecesFrom 0 previous t).filterMap Piece.value?

theorem head?_values (p : Pattern α) (previous : Option Char) (t : Text) :
    (p.values previous t).head? = (p.firstFrom? previous t).map (·.value) := by
  induction t generalizing previous with
  | nil => rfl
  | cons c t ih =>
    rw [values, piecesFrom, firstFrom?]
    cases p previous (c :: t) with
    | some found => rfl
    | none =>
      rw [Option.map_map]
      exact ih (some c)

theorem values_unread {p : Pattern α} {previous : Option Char} {c : Char} {t : Text}
    (unread : p previous (c :: t) = none) :
    p.values previous (c :: t) = p.values (some c) t := by
  rw [values, piecesFrom, unread]
  rfl

theorem values_found {p : Pattern α} {previous : Option Char} {source rest : Text} {value : α}
    (nonempty : source ≠ []) (read : p previous (source ++ rest) = some (value, rest)) :
    p.values previous (source ++ rest) = value :: p.values (Text.lastOf previous source) rest := by
  rw [values, piecesFrom_found nonempty read]
  rfl

theorem firstFrom?_found {p : Pattern α} {previous : Option Char} {source rest : Text} {value : α}
    (nonempty : source ≠ []) (read : p previous (source ++ rest) = some (value, rest)) :
    firstFrom? p previous (source ++ rest) = some ⟨[], value, rest⟩ := by
  cases source with
  | nil => contradiction
  | cons c source =>
    rw [List.cons_append] at read ⊢
    simp [firstFrom?, read]

end Pattern

namespace Block

theorem scanFrom_silent {word : Text} {previous : Option Char} {s rest : Text}
    (silent : (opener word).Silent previous s rest) :
    scanFrom word 0 previous (s ++ rest) =
      ⟨s.map .kept ++ (scanFrom word 0 (Text.lastOf previous s) rest).pieces,
        (scanFrom word 0 (Text.lastOf previous s) rest).unclosed⟩ := by
  induction s generalizing previous with
  | nil => simp
  | cons c s ih =>
    obtain ⟨first, later⟩ := (Pattern.silent_cons ..).mp silent
    simp [scanFrom, first, ih later, Scan.cons]

theorem scanFrom_covered (word : Text) (previous : Option Char) (s rest : Text) :
    scanFrom word s.length previous (s ++ rest) =
      scanFrom word 0 (Text.lastOf previous s) rest := by
  induction s generalizing previous with
  | nil => simp
  | cons c s ih => simp [scanFrom, ih]

theorem scanFrom_found {word : Text} {previous : Option Char} {source rest name inside body : Text}
    (nonempty : source ≠ []) (read : opener word previous (source ++ rest) = some (name, inside))
    (closed : Brace.close? inside = some (body, rest)) :
    scanFrom word 0 previous (source ++ rest) =
      (scanFrom word 0 (Text.lastOf previous source) rest).cons (.found ⟨name, body⟩ source) := by
  cases source with
  | nil => contradiction
  | cons c source =>
    rw [List.cons_append] at read ⊢
    have covered : (source ++ rest).length - rest.length = source.length := by simp
    simp only [scanFrom, read, closed, covered, List.take_left, scanFrom_covered, Text.lastOf_cons]

theorem scanFrom_unclosed {word : Text} {previous : Option Char} {t name inside : Text}
    (nonempty : t ≠ []) (read : opener word previous t = some (name, inside))
    (unclosed : Brace.close? inside = none) :
    scanFrom word 0 previous t = ⟨t.map .kept, some name⟩ := by
  cases t with
  | nil => contradiction
  | cons c t => simp only [scanFrom, read, unclosed]

theorem exists_of_mem_scanFrom {word : Text} {covered : Nat} {previous : Option Char} {t : Text}
    {block : Block}
    (member : block ∈ (scanFrom word covered previous t).pieces.filterMap Piece.value?) :
    ∃ before here inside rest, opener word before here = some (block.name, inside) ∧
      Brace.close? inside = some (block.body, rest) := by
  induction t generalizing covered previous with
  | nil => simp [scanFrom] at member
  | cons c t ih =>
    cases covered with
    | succ covered => exact ih (by simpa [scanFrom] using member)
    | zero =>
      unfold scanFrom at member
      split at member
      next => exact ih (by simpa [Scan.cons, Piece.value?] using member)
      next name inside opened =>
        split at member
        next => simp [Piece.value?] at member
        next body rest closed =>
          simp only [Scan.cons, List.filterMap_cons, Piece.value?, List.mem_cons] at member
          rcases member with rfl | later
          · exact ⟨previous, c :: t, inside, rest, opened, closed⟩
          · exact ih later

theorem all_silent {keyword : Keyword} {t : Text}
    (silent : (opener keyword.word.toList).Silent none t []) : all keyword t = pure [] := by
  have scanned := scanFrom_silent silent
  rw [List.append_nil] at scanned
  have empty : (pieces keyword t).value.filterMap Piece.value? = [] := by
    rw [pieces, scanned]
    simp only [scanFrom, List.append_nil, Piece.filterMap_value?_kept]
  have fine : (pieces keyword t).issues = [] := by
    rw [pieces, scanned]
    rfl
  change (⟨(pieces keyword t).value.filterMap Piece.value?, (pieces keyword t).issues ++ []⟩ :
    WithIssues (List Block)) = _
  rw [empty, fine]
  rfl

end Block

end CraftScript
