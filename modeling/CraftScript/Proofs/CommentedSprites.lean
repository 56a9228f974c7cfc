import CraftScript.Proofs.CommentedScans
import CraftScript.Proofs.FluidAmounts
import CraftScript.Proofs.SpriteRows

/-! Line comments in components of sprites. Rows and the base health are read with the comments that
stand in them, and at the latest a comma or a brace ends them. Comments that stand in none of them, and
in which none is read, are not seen. -/
namespace CraftScript

open Text Text.Phase

namespace Text

def endsValue (c : Char) : Bool :=
  c == ',' || c == '}'

variable {kind : Char → Bool} {b : Char}

theorem mark_of_endsValue (ends : endsValue b) : b = ',' ∨ b = '}' := by
  simpa [endsValue] using ends

theorem stops_mark (ends : endsValue b) (comma : kind ',' = false) (brace : kind '}' = false)
    (rest : Text) : Stops kind (b :: rest) := by
  rcases mark_of_endsValue ends with rfl | rfl
  · exact stops_cons comma rest
  · exact stops_cons brace rest

theorem head?_ne_of_endsValue {word : Text} (ends : endsValue b) (comma : ',' ∉ word)
    (brace : '}' ∉ word) (rest : Text) : ∀ c ∈ word, (b :: rest).head? ≠ some c := by
  rintro c inside ⟨rfl⟩
  rcases mark_of_endsValue ends with rfl | rfl
  · exact comma inside
  · exact brace inside

end Text

namespace Pattern

variable {α : Type} {p : Pattern α} {heads : Option Char → Text → Bool} {phase : Phase}
  {previous : Option Char} {s t : Text}

/-- The comments of a text leave the values in it alone: in a comment nothing is read, in what is read
no comment begins, and behind a head at which nothing is read none begins before the next mark. -/
def spared (p : Pattern α) (heads : Option Char → Text → Bool) :
    (covered : Nat) → Phase → Option Char → Text → Bool
  | _, _, _, [] => true
  | covered + 1, _, _, c :: t => !opensComment (c :: t) && spared p heads covered free (some c) t
  | 0, commented, previous, c :: t =>
    (p previous (c :: t)).isNone &&
      spared p heads 0 (if c = '\n' then free else commented) (some c) t
  | 0, headed, _, c :: t =>
    !opensComment (c :: t) && spared p heads 0 (if endsValue c then free else headed) (some c) t
  | 0, free, previous, c :: t =>
    if opensComment (c :: t) then spared p heads 0 commented (some c) t
    else
      match p previous (c :: t) with
      | some (_, rest) => spared p heads (t.length - rest.length) free (some c) t
      | none => spared p heads 0 (if heads previous (c :: t) then headed else free) (some c) t

theorem spared_covered (whole : p.spared heads s.length free previous (s ++ t)) :
    p.spared heads 0 free (lastOf previous s) t ∧
      uncommentedFrom false (s ++ t) = s ++ uncommentedFrom false t := by
  induction s generalizing previous with
  | nil => exact ⟨by simpa using whole, rfl⟩
  | cons c s ih =>
    rw [List.length_cons, List.cons_append, spared, Bool.and_eq_true, Bool.not_eq_true'] at whole
    obtain ⟨plain, later⟩ := whole
    obtain ⟨behind, kept⟩ := ih later
    rw [lastOf_cons, List.cons_append, uncommentedFrom, plain, kept]
    exact ⟨behind, rfl⟩

/-- From a head to the next mark the text is kept as it is. -/
theorem spared_headed (whole : p.spared heads 0 headed previous t) :
    uncommentedFrom false t = t ∨
      ∃ s b rest, endsValue b ∧ t = s ++ b :: rest ∧ p.spared heads 0 free (some b) rest ∧
        uncommentedFrom false t = s ++ b :: uncommentedFrom false rest := by
  induction t generalizing previous with
  | nil => exact .inl rfl
  | cons c t ih =>
    rw [spared, Bool.and_eq_true, Bool.not_eq_true'] at whole
    obtain ⟨plain, later⟩ := whole
    have kept : uncommentedFrom false (c :: t) = c :: uncommentedFrom false t := by
      rw [uncommentedFrom, plain]
      rfl
    by_cases ends : endsValue c
    · rw [if_pos ends] at later
      exact .inr ⟨[], c, t, ends, rfl, later, kept⟩
    · rw [if_neg ends] at later
      rcases ih later with same | ⟨s, b, rest, ends', rfl, behind, split⟩
      · exact .inl (by rw [kept, same])
      · exact .inr ⟨c :: s, b, rest, ends', rfl, behind, by rw [kept, split]; rfl⟩

/-- A pattern that begins with a head, reads no further than the next mark, and reads on without the
comments behind it. -/
structure Valued (p : Pattern α) (heads : Option Char → Text → Bool) : Prop where
  head {previous : Option Char} {t : Text} (read : (p previous t).isSome) : heads previous t
  quiet {c : Char} (mark : c ∈ ['\n', '/', ',', '}']) (previous : Option Char) (t : Text) :
    heads previous (c :: t) = false
  steady (previous : Option Char) (t : Text) :
    heads previous (uncommentedFrom false t) = heads previous t
  contained {b : Char} (ends : endsValue b) (previous : Option Char) (s rest : Text) :
    p.Contained previous s (b :: rest)
  reads {previous : Option Char} {t rest : Text} {value : α}
    (read : p previous t = some (value, rest)) : ∃ source, source ≠ [] ∧ t = source ++ rest ∧
      p previous (source ++ uncommentedFrom false rest) = some (value, uncommentedFrom false rest)

namespace Valued

variable (valued : p.Valued heads)
include valued

theorem none_of_quiet (quiet : heads previous t = false) : p previous t = none := by
  by_contra read
  simp [valued.head (Option.ne_none_iff_isSome.mp read)] at quiet

theorem none_of_mark {c : Char} (mark : c ∈ ['\n', '/', ',', '}']) (previous : Option Char)
    (t : Text) : p previous (c :: t) = none :=
  valued.none_of_quiet (valued.quiet mark previous t)

theorem values_append {b : Char} (ends : endsValue b) (previous : Option Char) (s rest : Text) :
    p.values previous (s ++ b :: rest) = p.values previous s ++ p.values (some b) rest := by
  have mark : b ∈ ['\n', '/', ',', '}'] := by
    rcases mark_of_endsValue ends with rfl | rfl <;> decide
  have apart := piecesFrom_append (valued.contained ends previous s rest) (Nat.zero_le _)
  rw [values, apart, List.filterMap_append]
  congr 1
  exact values_unread (valued.none_of_mark mark _ rest)

/-- Outside of comments a comment begins, a value is read, a head stands at which nothing is read, or
the text goes on. -/
theorem spared_free {c : Char} (whole : p.spared heads 0 free previous (c :: t)) :
    (opensComment (c :: t) ∧ p.spared heads 0 commented (some c) t) ∨
    uncommentedFrom false (c :: t) = c :: uncommentedFrom false t ∧
      ((∃ value source rest, source ≠ [] ∧ c :: t = source ++ rest ∧
          p previous (source ++ rest) = some (value, rest) ∧
          p previous (source ++ uncommentedFrom false rest) =
            some (value, uncommentedFrom false rest) ∧
          p.spared heads 0 free (lastOf previous source) rest ∧
          uncommentedFrom false (source ++ rest) = source ++ uncommentedFrom false rest) ∨
        p.spared heads 0 headed (some c) t ∨
        p previous (c :: t) = none ∧ p previous (c :: uncommentedFrom false t) = none ∧
          p.spared heads 0 free (some c) t) := by
  rw [spared] at whole
  by_cases opens : opensComment (c :: t)
  · rw [if_pos opens] at whole
    exact .inl ⟨opens, whole⟩
  · rw [if_neg opens] at whole
    have kept : uncommentedFrom false (c :: t) = c :: uncommentedFrom false t := by
      rw [uncommentedFrom, if_neg opens]
    refine .inr ⟨kept, ?_⟩
    cases read : p previous (c :: t) with
    | some found =>
      obtain ⟨value, rest⟩ := found
      rw [read] at whole
      obtain ⟨source, nonempty, split, reads⟩ := valued.reads read
      obtain ⟨d, source, rfl⟩ := List.exists_cons_of_ne_nil nonempty
      rw [List.cons_append] at split
      obtain ⟨rfl, rfl⟩ := List.cons.inj split
      have covered : (source ++ rest).length - rest.length = source.length := by simp
      dsimp only at whole
      rw [covered] at whole
      obtain ⟨behind, kept'⟩ := spared_covered whole
      refine .inl ⟨value, c :: source, rest, nonempty, rfl, read, reads, by rwa [lastOf_cons], ?_⟩
      rw [List.cons_append, kept, kept', List.cons_append]
    | none =>
      rw [read] at whole
      dsimp only at whole
      by_cases here : heads previous (c :: t)
      · rw [if_pos here] at whole
        exact .inr (.inl whole)
      · rw [if_neg here] at whole
        have unread : p previous (c :: uncommentedFrom false t) = none := by
          apply valued.none_of_quiet
          rw [← kept, valued.steady]
          simpa using here
        exact .inr (.inr ⟨rfl, unread, whole⟩)

/-- What stands before a comment does not matter, since the text goes on at the newline behind it. -/
theorem values_uncommented {previous' : Option Char} (whole : p.spared heads 0 phase previous t)
    (outside : phase ≠ .headed) (same : phase.isCommented = false → previous' = previous) :
    p.values previous' (uncommentedFrom phase.isCommented t) = p.values previous t := by
  -- What is read is passed in one piece, so the induction is on the length.
  induction size : t.length using Nat.strong_induction_on generalizing t phase previous previous' with
  | _ n ih =>
    subst size
    cases t with
    | nil => cases phase <;> rfl
    | cons c t =>
      cases phase with
      | headed => contradiction
      | commented =>
        rw [spared, Bool.and_eq_true, Option.isNone_iff_eq_none] at whole
        obtain ⟨unread, later⟩ := whole
        rw [values_unread unread]
        by_cases newline : c = '\n'
        · subst newline
          rw [if_pos rfl] at later
          rw [isCommented, uncommentedFrom, if_pos rfl,
            values_unread (valued.none_of_mark (by decide) _ _)]
          exact ih _ (by simp) later (by simp) (fun _ => rfl) rfl
        · rw [if_neg newline] at later
          rw [isCommented, uncommentedFrom, if_neg newline]
          exact ih _ (by simp) later (by simp) (by simp [isCommented]) rfl
      | free =>
        obtain rfl := same rfl
        have resume {rest : Text} {last : Option Char} (shorter : rest.length < (c :: t).length)
            (behind : p.spared heads 0 free last rest) :
            p.values last (uncommentedFrom false rest) = p.values last rest :=
          ih _ shorter behind (by simp) (fun _ => rfl) rfl
        rw [isCommented]
        rcases valued.spared_free whole with ⟨opens, later⟩ |
          ⟨kept, ⟨value, source, rest, nonempty, split, read, read', behind, kept'⟩ | later |
            ⟨unread, unread', later⟩⟩
        · rw [uncommentedFrom, if_pos opens]
          obtain rfl := slash_of_opensComment opens
          rw [values_unread (valued.none_of_mark (by decide) _ _)]
          exact ih _ (by simp) later (by simp) (by simp [isCommented]) rfl
        · have shorter : rest.length < (c :: t).length := by
            have positive := List.length_pos_iff.mpr nonempty
            rw [split, List.length_append]
            omega
          rw [split, kept', values_found nonempty read, values_found nonempty read',
            resume shorter behind]
        · rcases spared_headed later with bare | ⟨s, b, rest, ends, rfl, behind, kept'⟩
          · rw [kept, bare]
          · rw [kept, kept', ← List.cons_append, ← List.cons_append, valued.values_append ends,
              valued.values_append ends, resume (by simp; omega) behind]
        · rw [kept, values_unread unread, values_unread unread', resume (by simp) later]

end Valued

end Pattern

namespace Construction

def faceWord : Vocabulary where
  words := ["face".toList]
  letters := by decide

def rowWord : Vocabulary where
  words := ["row".toList]
  letters := by decide

def healthAt (previous : Option Char) (t : Text) : Bool :=
  beginsWord previous && (t.folded? "skillbasehealth".toList).any fun rest => beginsWord rest.head?

/-- The line comments in the body of a component of sprites that stand apart from what is read of it:
from its faces, from their rows, and from the base health. -/
structure SpritesApart (body : Text) : Prop where
  faces : Separate faceWord .free none body
  rows : ∀ face ∈ (Block.all .face body).value,
    spriteRow.spared (keywordAt rowWord) 0 .free none face.body
  health : healthAmount.spared healthAt 0 .free none body

instance (body : Text) : Decidable (SpritesApart body) :=
  decidable_of_iff (Separate faceWord .free none body ∧
    (∀ face ∈ (Block.all .face body).value,
      spriteRow.spared (keywordAt rowWord) 0 .free none face.body) ∧
    healthAmount.spared healthAt 0 .free none body)
    ⟨fun ⟨faces, rows, health⟩ => ⟨faces, rows, health⟩,
      fun apart => ⟨apart.faces, apart.rows, apart.health⟩⟩

theorem valued_spriteRow : spriteRow.Valued (keywordAt rowWord) where
  head {previous t} read := by
    obtain ⟨begins, gap, u, blanks, rfl⟩ := (isSome_row_iff (by decide)).mp read
    rw [List.append_assoc]
    exact keywordAt_of_mem begins (by decide) (beginsWord_gap blanks (by decide) u)
  quiet {c} mark := by
    have marks : ∀ c ∈ ['\n', '/', ',', '}'], isWord c = false := by decide
    exact keywordAt_eq_false (marks c mark)
  steady := keywordAt_uncommentedFrom
  contained ends previous s rest := by
    rw [spriteRow_eq_row]
    exact contained_row (stops_mark ends (by decide) (by decide) rest)
      (stops_mark ends (by decide) (by decide) rest) (stops_mark ends (by decide) (by decide) rest)
      previous s
  reads {previous t rest value} read := by
    obtain ⟨region, rfl, begins, gap, gap', blanks, blanks', stops, every, ends, rfl⟩ :=
      reads_spriteRow.iff.mp read
    have plain : rest.head? ≠ some '/' := fun first => absurd (ends '/' first) (by decide)
    have first := (head?_uncommentedFrom rest).resolve_right fun slash => plain slash.1
    refine ⟨_, by simp, rfl, reads_spriteRow.iff.mpr
      ⟨_, rfl, begins, gap, gap', blanks, blanks', ?_, every, ?_, rfl⟩⟩
    · rwa [Stops, List.head?_append, first, ← List.head?_append]
    · rwa [Stops, first]

theorem healthAt_iff {previous : Option Char} {t : Text} :
    healthAt previous t ↔ beginsWord previous ∧
      ∃ word, Folds "skillbasehealth".toList word ∧ startsWith word t := by
  simp only [healthAt, Bool.and_eq_true, Option.any_eq_true, folded?_eq_some_iff, startsWith,
    literal?_eq_some_iff]
  refine and_congr_right fun _ => ?_
  constructor
  · rintro ⟨rest, ⟨word, folds, split⟩, ends⟩
    exact ⟨word, folds, rest, split, ends⟩
  · rintro ⟨word, folds, rest, split, ends⟩
    exact ⟨rest, ⟨word, folds, split⟩, ends⟩

theorem amount?_append {b : Char} (ends : endsValue b) (s rest : Text) :
    EntryLine.amount? (s ++ b :: rest) =
      (EntryLine.amount? s).map fun (amount, after) => (amount, after ++ b :: rest) := by
  have digits : Stops isDigit (b :: rest) := stops_mark ends (by decide) (by decide) rest
  have point := @head?_ne_of_endsValue _ ['.'] ends (by decide) (by decide) rest
  simp only [EntryLine.amount?, takeWhile_append_of_stops digits, dropWhile_append_of_stops digits,
    literal?_append point]
  cases literal? (s.dropWhile isDigit) ['.'] with
  | none => by_cases empty : (s.takeWhile isDigit).isEmpty <;> simp [empty]
  | some behind =>
    simp only [Option.map_some, Option.bind_some, run?_append digits]
    cases run? isDigit behind with
    | none => by_cases empty : (s.takeWhile isDigit).isEmpty <;> simp [empty]
    | some parts => rfl

theorem endsNumeral_uncommented {fraction rest : Text} (ends : EntryLine.EndsNumeral fraction rest) :
    EntryLine.EndsNumeral fraction (uncommentedFrom false rest) := by
  refine ⟨stops_uncommentedFrom ends.stops (by decide), fun whole behind point => ?_⟩
  have first : rest.head? = some '.' := by
    rcases head?_uncommentedFrom rest with same | ⟨-, empty | newline⟩
    · rw [← same, point]
      rfl
    · simp [point] at empty
    · simp [point] at newline
  obtain ⟨later, rfl⟩ := List.head?_eq_some_iff.mp first
  rw [uncommentedFrom, opensComment_eq_false (by decide)] at point
  obtain ⟨-, rfl⟩ := List.cons.inj point
  exact stops_uncommentedFrom (ends.pointless whole later rfl) (by decide)

theorem healthAmount_eq_some_iff {previous : Option Char} {t whole fraction rest : Text} :
    healthAmount previous t = some ((whole, fraction), rest) ↔
      beginsWord previous ∧ ∃ word gap gap', Folds "skillbasehealth".toList word ∧
        (∀ c ∈ gap, isBlank c) ∧ (∀ c ∈ gap', isBlank c) ∧
        EntryLine.Spelled whole fraction (EntryLine.numeral whole fraction) ∧
        EntryLine.EndsNumeral fraction rest ∧
        t = word ++ gap ++ '=' :: (gap' ++ EntryLine.numeral whole fraction) ++ rest := by
  simp only [healthAmount, Option.bind_eq_bind, Option.bind_eq_some_iff, guard_eq_some_iff,
    literal?_eq_some_iff, folded?_eq_some_iff]
  constructor
  · rintro ⟨u, ⟨word, folds, rfl⟩, _, begins, v, opens, number⟩
    obtain ⟨spelled, split, ends⟩ := EntryLine.amount?_eq_some_iff.mp number
    refine ⟨begins, word, u.takeWhile isBlank, v.takeWhile isBlank, folds,
      fun c => List.mem_takeWhile_imp, fun c => List.mem_takeWhile_imp, spelled, ends, ?_⟩
    have back : v.takeWhile isBlank ++ (EntryLine.numeral whole fraction ++ rest) = v := by
      rw [← split, dropBlanks, List.takeWhile_append_dropWhile]
    have front : u.takeWhile isBlank ++ '=' :: v = u := by
      rw [← List.singleton_append, ← opens, dropBlanks, List.takeWhile_append_dropWhile]
    simp only [List.append_assoc, List.cons_append, back, front]
  · rintro ⟨begins, word, gap, gap', folds, blanks, blanks', spelled, ends, rfl⟩
    let number := EntryLine.numeral whole fraction ++ rest
    have solid : Stops isBlank number := EntryLine.IsNumeral.stops ⟨whole, fraction, spelled⟩ rest
    refine ⟨gap ++ '=' :: (gap' ++ number), ⟨word, folds, by simp [number]⟩, (), begins,
      gap' ++ number, dropWhile_append_stop blanks (stops_cons (by decide) _), ?_⟩
    rw [dropBlanks, dropWhile_append_stop blanks' solid]
    exact EntryLine.amount?_eq_some_iff.mpr ⟨spelled, rfl, ends⟩

theorem valued_healthAmount : healthAmount.Valued healthAt where
  head {previous t} read := by
    obtain ⟨⟨⟨whole, fraction⟩, rest⟩, read⟩ := Option.isSome_iff_exists.mp read
    obtain ⟨begins, word, gap, gap', folds, blanks, -, -, -, rfl⟩ :=
      healthAmount_eq_some_iff.mp read
    refine healthAt_iff.mpr ⟨begins, word, folds, ?_⟩
    rw [List.append_assoc, List.append_assoc, startsWith, literal?_eq_some_iff.mpr rfl,
      Option.any_some]
    exact beginsWord_gap blanks (by decide) _
  quiet {c} mark previous t := by
    have marks : ∀ c ∈ ['\n', '/', ',', '}'], foldsTo 's' c = false := by decide
    have word : "skillbasehealth".toList = 's' :: "killbasehealth".toList := rfl
    rw [healthAt, word, folded?, if_neg (by simp [marks c mark]), Option.any_none, Bool.and_false]
  steady previous t := by
    rw [Bool.eq_iff_iff, healthAt_iff, healthAt_iff]
    refine and_congr_right fun _ => exists_congr fun word => and_congr_right fun folds => ?_
    have foreign (c : Char) (other : ∀ lower ∈ "skillbasehealth".toList, foldsTo lower c = false) :
        c ∉ word := by
      intro inside
      obtain ⟨lower, member, same⟩ := mem_of_folds folds inside
      simp [other lower member] at same
    rw [startsWith_uncommentedFrom (foreign '/' (by decide)) (foreign '\n' (by decide))]
  contained {b} ends previous s rest := by
    rintro front c back -
    have foreign : ∀ lower ∈ "skillbasehealth".toList, foldsTo lower b = false := by
      rcases mark_of_endsValue ends with rfl | rfl <;> decide
    have blanks : Stops isBlank (b :: rest) := stops_mark ends (by decide) (by decide) rest
    have equals := @head?_ne_of_endsValue _ ['='] ends (by decide) (by decide) rest
    rw [← List.cons_append]
    simp only [healthAmount, folded?_append foreign, Option.bind_eq_bind]
    cases folded? (c :: back) "skillbasehealth".toList with
    | none => rfl
    | some u =>
      simp only [Option.map_some, Option.bind_some, dropBlanks, dropWhile_append_of_stops blanks,
        literal?_append equals]
      by_cases begins : beginsWord (lastOf previous front)
      · cases literal? (u.dropWhile isBlank) ['='] with
        | none => simp [guard, begins]
        | some v =>
          simp [guard, begins, dropWhile_append_of_stops blanks, amount?_append ends]
      · simp [guard, begins]
  reads {previous t rest value} read := by
    obtain ⟨whole, fraction⟩ := value
    obtain ⟨begins, word, gap, gap', folds, blanks, blanks', spelled, ends, rfl⟩ :=
      healthAmount_eq_some_iff.mp read
    exact ⟨_, by simp, rfl, healthAmount_eq_some_iff.mpr ⟨begins, word, gap, gap', folds, blanks,
      blanks', spelled, endsNumeral_uncommented ends, rfl⟩⟩

theorem spritesOf_uncommented {face : Block}
    (apart : spriteRow.spared (keywordAt rowWord) 0 .free none face.body) :
    spritesOf face.uncommented = spritesOf face := by
  have rows := valued_spriteRow.values_uncommented apart (by simp) fun _ => rfl
  rw [isCommented, Pattern.values, Pattern.values] at rows
  rw [spritesOf, spritesOf, Pattern.pieces, Pattern.pieces, Block.uncommented, rows]

theorem baseHealth?_eq (body : Text) :
    baseHealth? body = (healthAmount.values none body).head?.bind fun (whole, fraction) =>
      Amount.ofDigits? whole fraction := by
  rw [Pattern.head?_values, Option.bind_map]
  rfl

theorem faces_uncommented {body : Text} (apart : SpritesApart body) :
    faces (uncommentedFrom false body) = faces body := by
  symm
  apply WithIssues.eq_of_agree
  have found := Block.agree_all
    (@Block.agree_pieces_uncommented faceWord .face _ (by decide) apart.faces)
  refine WithIssues.agree_bind_value found.1 (WithIssues.agree_pure ?_)
  have both := (List.forall₂_and_left _ _).mpr ⟨apart.rows, found.2.flip⟩
  refine congrArg Dict.ofList (map_eq_of_forall₂ both ?_).symm
  rintro face ⟨name, body⟩ ⟨rows, rfl, -, rfl⟩
  exact Prod.ext rfl (spritesOf_uncommented rows).symm

theorem baseHealth?_uncommented {body : Text} (apart : SpritesApart body) :
    baseHealth? (uncommentedFrom false body) = baseHealth? body := by
  have amounts := valued_healthAmount.values_uncommented apart.health (by simp) fun _ => rfl
  rw [isCommented] at amounts
  rw [baseHealth?_eq, baseHealth?_eq, amounts]

theorem alikeSprites_uncommented {entity entity' : Block}
    (alike : entity.Alike (Text.Uncommented keywords) entity')
    (apart : ∀ body ∈ spriteBody? entity', SpritesApart body) : AlikeSprites entity entity' := by
  have components := @Block.agree_pieces_uncommented keywords .component _ (by decide) alike.2.1
  rw [← alike.2.2] at components
  have bodies := Block.rel_bodies (Block.agree_all components).2 "SpriteConfig"
  rw [AlikeSprites]
  change Option.Rel _ (spriteBody? entity) (spriteBody? entity') at bodies
  generalize spriteBody? entity = body at bodies ⊢
  generalize spriteBody? entity' = body' at bodies apart ⊢
  cases bodies with
  | none => exact .none
  | @some body body' texts =>
    obtain ⟨-, rfl⟩ := texts
    have here := apart body' rfl
    exact .some ⟨(faces_uncommented here).symm, (baseHealth?_uncommented here).symm⟩

end Construction

end CraftScript
