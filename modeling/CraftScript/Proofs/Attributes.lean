import CraftScript.EntryLine
import CraftScript.Proofs.Tokens

/-! The patterns of item attributes: what they read, and which tokens they pass. -/
namespace CraftScript.EntryLine

open Text Pattern

theorem afterBlanks?_space {t : Text} (starts : Stops isBlank t) :
    afterBlanks? (' ' :: t) = some t :=
  afterBlanks?_eq_some_iff.mpr ⟨[' '], by simp, by decide, starts, rfl⟩

theorem restOfLine?_space {t : Text} (starts : Stops isBlank t) (single : '\n' ∉ t) :
    restOfLine? (' ' :: t) = some t := by
  have dropped : dropBlanks ([' '] ++ t) = t := dropBlanks_append_stop (by decide) starts
  rw [List.singleton_append] at dropped
  simp [restOfLine?, dropped, single]

theorem bracketed_eq_some_iff {word t inside rest : Text} {previous : Option Char} :
    bracketed word previous t = some (inside, rest) ↔
      beginsWord previous ∧ ∃ found, Folds word found ∧ ']' ∉ inside ∧
        t = found ++ '[' :: (inside ++ ']' :: rest) := by
  simp only [bracketed, Option.bind_eq_bind, Option.bind_eq_some_iff, guard_eq_some_iff,
    folded?_eq_some_iff, literal?_eq_some_iff, splitOnce?_eq_some_iff]
  constructor
  · rintro ⟨_, ⟨found, folds, rfl⟩, _, begins, _, rfl, absent, rfl⟩
    exact ⟨begins, found, folds, absent, rfl⟩
  · rintro ⟨begins, found, folds, absent, rfl⟩
    exact ⟨_, ⟨found, folds, rfl⟩, (), begins, _, rfl, absent, rfl⟩

theorem bracketGroup_eq_some_iff {t inside rest : Text} {previous : Option Char} :
    bracketGroup previous t = some (inside, rest) ↔
      ']' ∉ inside ∧ t = '[' :: (inside ++ ']' :: rest) := by
  simp only [bracketGroup, Option.bind_eq_bind, Option.bind_eq_some_iff, literal?_eq_some_iff,
    splitOnce?_eq_some_iff]
  constructor
  · rintro ⟨_, rfl, absent, rfl⟩
    exact ⟨absent, rfl⟩
  · rintro ⟨absent, rfl⟩
    exact ⟨_, rfl, absent, rfl⟩

theorem labelled_eq_some_iff {label t run rest : Text} {inRun : Char → Bool}
    {previous : Option Char} :
    labelled label inRun previous t = some (run, rest) ↔
      beginsWord previous ∧ ∃ found behind, Folds label found ∧ t = found ++ behind ∧
        run? inRun behind.dropBlanks = some (run, rest) := by
  simp only [labelled, Option.bind_eq_bind, Option.bind_eq_some_iff, guard_eq_some_iff,
    folded?_eq_some_iff]
  constructor
  · rintro ⟨behind, ⟨found, folds, rfl⟩, _, begins, read⟩
    exact ⟨begins, found, behind, folds, rfl, read⟩
  · rintro ⟨begins, found, behind, folds, rfl, read⟩
    exact ⟨behind, ⟨found, folds, rfl⟩, (), begins, read⟩

theorem beginsWord_of_atEdge {previous : Option Char} (edge : AtEdge previous) :
    beginsWord previous := by
  rcases edge with rfl | rfl
  · rfl
  · decide

theorem takes_bracketed {word inside : Text} (nonempty : word ≠ []) (self : Folds word word)
    (closed : ']' ∉ inside) :
    (bracketed word).Takes ⟨word ++ '[' :: (inside ++ [']']), some inside⟩ := by
  intro previous rest edge parted
  refine ⟨List.append_ne_nil_of_left_ne_nil nonempty _, bracketed_eq_some_iff.mpr ?_⟩
  exact ⟨beginsWord_of_atEdge edge, word, self, closed, by simp⟩

theorem takes_bracketGroup {inside : Text} (closed : ']' ∉ inside) :
    bracketGroup.Takes ⟨'[' :: (inside ++ [']']), some inside⟩ := by
  intro previous rest edge parted
  exact ⟨by simp, bracketGroup_eq_some_iff.mpr ⟨closed, by simp⟩⟩

theorem takes_labelled {label run : Text} {inRun : Char → Bool} (nonempty : label ≠ [])
    (self : Folds label label) (filled : run ≠ []) (solid : ∀ c ∈ run, isBlank c = false)
    (reads : ∀ c ∈ run, inRun c) (ends : inRun ' ' = false) :
    (labelled label inRun).Takes ⟨label ++ run, some run⟩ := by
  intro previous rest edge parted
  refine ⟨List.append_ne_nil_of_left_ne_nil nonempty _, labelled_eq_some_iff.mpr ?_⟩
  refine ⟨beginsWord_of_atEdge edge, label, run ++ rest, self, by simp, ?_⟩
  have starts : Stops isBlank (run ++ rest) := stops_append (stops_of_forall solid) filled rest
  have kept : dropBlanks (run ++ rest) = run ++ rest :=
    @dropBlanks_append_stop [] _ (by simp) starts
  rw [kept]
  refine run?_eq_some_iff.mpr ⟨filled, reads, ?_, rfl⟩
  rcases parted with rfl | ⟨t, rfl⟩
  · exact stops_nil _
  · exact stops_cons ends t

theorem not_mem_of_folds {word found : Text} (folds : Folds word found) {c : Char}
    (other : ∀ lower ∈ word, foldsTo lower c = false) : c ∉ found := by
  intro inside
  obtain ⟨lower, member, same⟩ := mem_of_folds folds inside
  rw [other lower member] at same
  contradiction

theorem marked_bracketed {word : Text} (solid : ∀ lower ∈ word, foldsTo lower ' ' = false) :
    (bracketed word).Marked '[' := by
  rintro previous t ⟨inside, rest⟩ read
  obtain ⟨-, found, folds, -, rfl⟩ := bracketed_eq_some_iff.mp read
  exact ⟨found, _, not_mem_of_folds folds solid, rfl⟩

theorem folds_concat {word found : Text} {last : Char} (folds : Folds (word ++ [last]) found) :
    ∃ front c, found = front ++ [c] ∧ Folds word front ∧ foldsTo last c := by
  induction word generalizing found with
  | nil =>
    obtain _ | ⟨first, later⟩ := folds
    cases later
    exact ⟨[], _, rfl, .nil, first⟩
  | cons w word ih =>
    obtain _ | ⟨first, later⟩ := folds
    obtain ⟨front, c, rfl, early, late⟩ := ih later
    exact ⟨_ :: front, c, rfl, .cons first early, late⟩

theorem eq_colon {c : Char} (folds : foldsTo ':' c) : c = ':' := by
  simp only [foldsTo, Char.reduceBEq, Bool.false_and, Bool.or_false, beq_iff_eq] at folds
  unfold Char.toLower at folds
  split at folds
  next upper =>
    have value : (c.val + 32).toNat = 58 := congrArg Char.toNat folds
    rw [ge_iff_le, UInt32.le_iff_toNat_le, UInt32.le_iff_toNat_le] at upper
    change 65 ≤ c.val.toNat ∧ c.val.toNat ≤ 90 at upper
    rw [UInt32.toNat_add] at value
    change (c.val.toNat + 32) % 2 ^ 32 = 58 at value
    omega
  next => exact folds

theorem marked_labelled {word : Text} {inRun : Char → Bool}
    (solid : ∀ lower ∈ word, foldsTo lower ' ' = false) :
    (labelled (word ++ [':']) inRun).Marked ':' := by
  rintro previous t ⟨run, rest⟩ read
  obtain ⟨-, found, behind, folds, rfl, -⟩ := labelled_eq_some_iff.mp read
  obtain ⟨front, c, rfl, early, late⟩ := folds_concat folds
  obtain rfl := eq_colon late
  exact ⟨front, behind, not_mem_of_folds early solid, by simp⟩

theorem refuses_bracketed {word : Text} {lower c : Char} (other : foldsTo lower c = false) :
    (bracketed (lower :: word)).Refuses c := by
  intro previous t
  simp [bracketed, folded?, other]

theorem refuses_labelled {label : Text} {inRun : Char → Bool} {lower c : Char}
    (other : foldsTo lower c = false) : (labelled (lower :: label) inRun).Refuses c := by
  intro previous t
  simp [labelled, folded?, other]

theorem refuses_bracketGroup {c : Char} (other : c ≠ '[') : bracketGroup.Refuses c := by
  intro previous t
  simp [bracketGroup, literal?, other]

theorem refuses_tagList {c : Char} (other : foldsTo 't' c = false) : tagList.Refuses c :=
  @refuses_bracketed ['a', 'g', 's'] 't' c other

theorem refuses_flagList {c : Char} (other : foldsTo 'f' c = false) : flagList.Refuses c :=
  @refuses_bracketed ['l', 'a', 'g', 's'] 'f' c other

theorem refuses_mapperName {c : Char} (other : foldsTo 'm' c = false) : mapperName.Refuses c :=
  @refuses_labelled ['a', 'p', 'p', 'e', 'r', ':'] _ 'm' c other

theorem refuses_modeWord {c : Char} (other : foldsTo 'm' c = false) : modeWord.Refuses c :=
  @refuses_labelled ['o', 'd', 'e', ':'] _ 'm' c other

theorem marked_tagList : tagList.Marked '[' := marked_bracketed (by decide)

theorem marked_flagList : flagList.Marked '[' := marked_bracketed (by decide)

theorem marked_mapperName : mapperName.Marked ':' :=
  @marked_labelled "mapper".toList _ (by decide)

theorem marked_modeWord : modeWord.Marked ':' := @marked_labelled "mode".toList _ (by decide)

end CraftScript.EntryLine
