import CraftScript.Proofs.Canonical.Body
import CraftScript.Proofs.MapperRegions

/-! Bodies with both sections and properties around them. The inputs are cut out first and the outputs
next, wherever they stand, and what is read as properties is the same in either order. -/
namespace CraftScript

open Text

namespace Text

theorem isInfix_of_append {part s t : Text} {c : Char} (ends : part.getLast? = some c)
    (foreign : c ∉ t) (inside : part <:+: s ++ t) : part <:+: s := by
  obtain ⟨front, back, same⟩ := inside
  rcases List.append_eq_append_iff.mp same with ⟨between, rfl, -⟩ | ⟨excess, early, rfl⟩
  · exact ⟨front, between, rfl⟩
  · rcases List.eq_nil_or_concat' excess with rfl | ⟨begun, d, rfl⟩
    · exact ⟨front, [], by simpa using early⟩
    · -- The last character of the part would stand behind `s`.
      have last := congrArg List.getLast? early
      rw [List.getLast?_append, ends, ← List.append_assoc, List.getLast?_concat, Option.some_or] at last
      exact absurd (by simp [Option.some.inj last]) foreign

theorem isInfix_of_beforeWord {word s : Text} (there : word.reverse <+: beforeWord s) :
    word <:+: s := by
  have late : beforeWord s <:+ s.reverse :=
    ((List.dropWhile_suffix _).trans (List.dropWhile_suffix _)).trans (List.dropWhile_suffix _)
  exact List.reverse_infix.mp (there.isInfix.trans late.isInfix)

theorem beginsWord_lastOf {previous : Option Char} {t : Text} (begins : beginsWord previous)
    (ends : beginsWord t.getLast?) : beginsWord (lastOf previous t) := by
  rw [lastOf]
  cases last : t.getLast? with
  | none => exact begins
  | some c => rwa [last] at ends

end Text

namespace RecipeBody

def sectionText (keyword inside : Text) : Text :=
  keyword ++ [' '] ++ '{' :: (inside ++ ['}'])

theorem sectionText_append (keyword inside rest : Text) :
    sectionText keyword inside ++ rest = keyword ++ [' '] ++ '{' :: (inside ++ '}' :: rest) := by
  simp [sectionText]

section Cuts

variable {word other before between inside inside' after : Text}

theorem sectionOpener_silent_brace (keyword : IsKeyword word) {s rest : Text} {b : Char}
    (free : Braceless s) (brace : b = '{' ∨ b = '}')
    (absent : b = '{' → ¬ word.reverse <+: s.reverse.dropWhile isBlank)
    (later : ∀ previous, (sectionOpener word).Silent previous between rest)
    (previous : Option Char) :
    (sectionOpener word).Silent previous (s ++ b :: between) rest := by
  rw [Pattern.silent_append, Pattern.silent_cons]
  refine ⟨?_, ?_, later _⟩
  · rintro front c back rfl
    rw [Option.eq_none_iff_forall_ne_some]
    rintro ⟨⟨⟩, after⟩ read
    obtain ⟨-, gap, blanks, same⟩ := sectionOpener_eq_some_iff.mp read
    have head : Braceless (word ++ gap) :=
      braceless_append.mpr ⟨keyword.braceless, braceless_blanks blanks⟩
    obtain ⟨whole, rfl, -⟩ := first_brace_unique (braceless_append.mp free).2 head brace (.inl rfl) same
    apply absent rfl
    rw [whole, List.reverse_append, List.reverse_append, List.append_assoc,
      dropWhile_append_stop (by simpa using blanks) (keyword.ends _)]
    exact List.prefix_append _ _
  · rw [Option.eq_none_iff_forall_ne_some]
    rintro ⟨⟨⟩, after⟩ read
    obtain ⟨-, gap, -, same⟩ := sectionOpener_eq_some_iff.mp read
    rw [List.append_assoc] at same
    exact keyword.ne_brace_cons brace _ _ same

theorem cutSection?_first (keyword : IsKeyword word) (free : Braceless before)
    (free' : Braceless inside) (begins : beginsWord (lastOf none before)) :
    cutSection? word (before ++ (sectionText word inside ++ after)) =
      some (inside, before ++ after) := by
  rw [sectionText_append]
  exact cutSection?_eq keyword (by decide) free begins (Brace.balanced_of_braceless free')

theorem cutSection?_second (keyword : IsKeyword word) (keyword' : IsKeyword other)
    (apart : ∀ t, ¬ word.reverse <+: other.reverse ++ t) (free : Braceless before)
    (freeInside' : Braceless inside') (freeBetween : Braceless between)
    (freeInside : Braceless inside) (ends : beginsWord between.getLast?) :
    cutSection? word
        (before ++ (sectionText other inside' ++ (between ++ (sectionText word inside ++ after)))) =
      some (inside, before ++ (sectionText other inside' ++ (between ++ after))) := by
  have split (rest : Text) : before ++ (sectionText other inside' ++ (between ++ rest)) =
      (before ++ other ++ [' '] ++ '{' :: (inside' ++ '}' :: between)) ++ rest := by
    simp [sectionText]
  have head : Braceless (before ++ other ++ [' ']) :=
    braceless_append.mpr ⟨braceless_append.mpr ⟨free, keyword'.braceless⟩, by unfold Braceless; decide⟩
  have absent : ¬ word.reverse <+: (before ++ other ++ [' ']).reverse.dropWhile isBlank := by
    have last : (before ++ other ++ [' ']).reverse = [' '] ++ (other.reverse ++ before.reverse) := by
      simp
    rw [last, dropWhile_append_stop (by decide) (keyword'.ends _)]
    exact apart _
  rw [split, split, sectionText_append]
  refine cutSection?_of_silent (by decide) ?_ ?_ (Brace.balanced_of_braceless freeInside)
  · refine sectionOpener_silent_brace keyword head (.inl rfl) (fun _ => absent) (fun _ => ?_) none
    refine sectionOpener_silent_brace keyword freeInside' (.inr rfl) (fun opens => ?_) (fun _ => ?_) _
    · exact absurd opens (by decide)
    exact sectionOpener_silent_before keyword (by decide) freeBetween _
  · simp only [lastOf_append, lastOf_cons]
    exact beginsWord_lastOf (by decide +kernel) ends

end Cuts

theorem takeMappers_silent {t : Text} (silent : mapper.Silent none t []) : takeMappers t = (∅, t) := by
  rw [takeMappers, Pattern.takeAll_of_silent silent]
  rfl

/-- A mapper's head would have to begin outside the sections, as a brace closes behind what is in
them. -/
theorem takeMappers_sections {word other before between inside inside' after : Text}
    (keyword : IsKeyword word) (keyword' : IsKeyword other) (foreign : 'r' ∉ word)
    (foreign' : 'r' ∉ other) (free : Braceless before) (freeInside : Braceless inside)
    (freeBetween : Braceless between) (freeInside' : Braceless inside') (freeAfter : Braceless after)
    (absent : ¬ "itemMapper".toList <:+: before) (absent' : ¬ "itemMapper".toList <:+: between) :
    let body :=
      before ++ (sectionText word inside ++ (between ++ (sectionText other inside' ++ after)))
    takeMappers body = (∅, body) := by
  intro body
  have stretch {s key : Text} (unmapped : ¬ "itemMapper".toList <:+: s) (known : 'r' ∉ key) :
      ¬ "itemMapper".toList.reverse <+: beforeWord (s ++ (key ++ [' '])) := by
    intro there
    have inside := isInfix_of_beforeWord there
    exact unmapped (isInfix_of_append (c := 'r') rfl (by simpa using known) inside)
  have headFree {s key : Text} (plain : Braceless s) (known : IsKeyword key) :
      Braceless (s ++ (key ++ [' '])) :=
    braceless_append.mpr ⟨plain, braceless_append.mpr ⟨known.braceless, by unfold Braceless; decide⟩⟩
  have split : body = (before ++ (word ++ [' '])) ++ '{' :: (inside ++ '}' ::
      ((between ++ (other ++ [' '])) ++ '{' :: (inside' ++ '}' :: after))) := by
    simp [body, sectionText]
  apply takeMappers_silent
  apply Canonical.mapper_silent
  have mapperWord := Canonical.isKeyword_itemMapper
  rw [split]
  refine Block.opener_silent_step mapperWord (headFree free keyword) (.inl rfl)
    (fun _ => stretch absent foreign) (fun _ => ?_) none
  refine Block.opener_silent_step mapperWord freeInside (.inr rfl)
    (fun opens => absurd opens (by decide)) (fun _ => ?_) _
  refine Block.opener_silent_step mapperWord (headFree freeBetween keyword') (.inl rfl)
    (fun _ => stretch absent' foreign') (fun _ => ?_) _
  refine Block.opener_silent_step mapperWord freeInside' (.inr rfl)
    (fun opens => absurd opens (by decide)) (fun _ => ?_) _
  exact Block.opener_silent_end freeAfter _

def isCategory (property : Property) : Bool :=
  property.key.sameIgnoringCase "category".toList

def lastCategory? (properties : List Property) : Option String :=
  (properties.filter isCategory).getLast?.map fun property => String.ofList property.value

def detailPairs (properties : List Property) : List (String × Detail) :=
  (properties.filter (!isCategory ·)).map fun property =>
    (String.ofList property.key, detail property.value)

theorem foldl_store_last {recipe : Recipe} (uncategorized : recipe.category = none)
    (empty : recipe.details = ∅) (properties : List Property) :
    properties.foldl store recipe =
      { recipe with
        category := lastCategory? properties
        details := Dict.ofList (detailPairs properties) } := by
  induction properties using List.reverseRecOn with
  | nil =>
    obtain ⟨name, inputs, outputs, mappers, category, construction, sprites, health, details⟩ := recipe
    cases uncategorized
    cases empty
    rfl
  | append_singleton front last ih =>
    rw [List.foldl_append, ih, List.foldl_cons, List.foldl_nil, store]
    split
    next known =>
      have category : isCategory last = true := known
      simp [lastCategory?, detailPairs, List.filter_append, category]
    next known =>
      have other : isCategory last = false := by simpa [isCategory] using known
      simp [lastCategory?, detailPairs, List.filter_append, other, Dict.ofList_concat]

theorem read_of_cuts (settings : Settings) (name : String) {body left rest given made : Text}
    (mapped : takeMappers body = (∅, body))
    (cut : cutSection? "inputs".toList body = some (given, left))
    (cut' : cutSection? "outputs".toList left = some (made, rest)) :
    let inputs := Section.read settings given
    let outputs := Section.read settings made
    read settings name body =
      ⟨{ name
         inputs := inputs.value.entries
         outputs := outputs.value.entries ++ inputs.value.carriedOver ++ outputs.value.carriedOver
         category := lastCategory? (Property.all rest)
         details := Dict.ofList (detailPairs (Property.all rest)) },
        inputs.issues ++ outputs.issues⟩ := by
  intro inputs outputs
  have taken := takeSection_of_cut settings name cut
  have yielded := takeSection_of_cut settings name cut'
  obtain ⟨value, issues⟩ := @read_steps settings name body body left rest ∅ inputs.value outputs.value
    mapped (by rw [taken]) (by rw [yielded])
  rw [foldl_store_last rfl rfl] at value
  rw [taken, yielded] at issues
  have whole : read settings name body =
    ⟨(read settings name body).value, (read settings name body).issues⟩ := rfl
  rw [whole, value, issues]
  rfl

/-- Two sections with plain text before, between and behind them are read alike in either order. Each
has its own entries, what the inputs and then the outputs set aside follows the outputs' entries, and the
category and the details are those of the text around them, the last of each key. -/
theorem read_sections (settings : Settings) (name : String) {pre mid post given made : Text}
    (free : ∀ t ∈ [pre, mid, post, given, made], Braceless t)
    (unmapped : ∀ t ∈ [pre, mid], ¬ "itemMapper".toList <:+: t)
    (ends : ∀ t ∈ [pre, mid], beginsWord t.getLast?) :
    let inputs := Section.read settings given
    let outputs := Section.read settings made
    let properties := Property.all (pre ++ mid ++ post)
    ∃ details : Dict Detail,
      (∀ key, details.get? key = Dict.lastNamed? key (detailPairs properties)) ∧
      let recipe : Recipe :=
        { name
          inputs := inputs.value.entries
          outputs := outputs.value.entries ++ inputs.value.carriedOver ++ outputs.value.carriedOver
          mappers := none
          category := lastCategory? properties
          details }
      read settings name (pre ++ (sectionText "inputs".toList given ++
          (mid ++ (sectionText "outputs".toList made ++ post)))) =
        ⟨recipe, inputs.issues ++ outputs.issues⟩ ∧
      read settings name (pre ++ (sectionText "outputs".toList made ++
          (mid ++ (sectionText "inputs".toList given ++ post)))) =
        ⟨recipe, inputs.issues ++ outputs.issues⟩ := by
  intro inputs outputs properties
  simp only [List.forall_mem_cons, List.not_mem_nil, false_implies, implies_true, and_true] at free unmapped ends
  obtain ⟨freePre, freeMid, freePost, freeGiven, freeMade⟩ := free
  obtain ⟨absentPre, absentMid⟩ := unmapped
  obtain ⟨endsPre, endsMid⟩ := ends
  have begins : beginsWord (lastOf none pre) := beginsWord_lastOf rfl endsPre
  have around : properties = Property.all (pre ++ (mid ++ post)) := by
    rw [← List.append_assoc]
  refine ⟨Dict.ofList (detailPairs properties), fun key => Dict.get?_ofList key _, ?_, ?_⟩
  · rw [around]
    apply read_of_cuts settings name
    · exact takeMappers_sections Canonical.isKeyword_inputs Canonical.isKeyword_outputs (by decide)
        (by decide) freePre freeGiven freeMid freeMade freePost absentPre absentMid
    · exact cutSection?_first Canonical.isKeyword_inputs freePre freeGiven begins
    · have ends : beginsWord (lastOf none (pre ++ mid)) := by
        rw [lastOf_append]
        exact beginsWord_lastOf begins endsMid
      have cut := @cutSection?_first _ (pre ++ mid) made post Canonical.isKeyword_outputs
        (braceless_append.mpr ⟨freePre, freeMid⟩) freeMade ends
      rwa [List.append_assoc, List.append_assoc] at cut
  · rw [around]
    apply read_of_cuts settings name
    · exact takeMappers_sections Canonical.isKeyword_outputs Canonical.isKeyword_inputs (by decide)
        (by decide) freePre freeMade freeMid freeGiven freePost absentPre absentMid
    · exact cutSection?_second Canonical.isKeyword_inputs Canonical.isKeyword_outputs (by simp)
        freePre freeMade freeMid freeGiven endsMid
    · exact cutSection?_first Canonical.isKeyword_outputs freePre freeMade begins

/-- Words like the keywords stand in and behind the sections, where they open nothing. -/
theorem read_sections_siphoned :
    let pre := "Category = Metal, n = 1, ".toList
    let mid := "\nn = 2, ".toList
    let post := "inputs itemMapper M".toList
    let given := "item 1 Bar\n+fluid 2 Water\nitemMapper outputs ".toList
    let made := "item 3 inputs".toList
    let forward := read {} "R" (pre ++ (sectionText "inputs".toList given ++
      (mid ++ (sectionText "outputs".toList made ++ post))))
    forward = read {} "R" (pre ++ (sectionText "outputs".toList made ++
      (mid ++ (sectionText "inputs".toList given ++ post)))) ∧
    forward.value.inputs = [.item { index := 1, ids := ["Base.Bar"] }] ∧
    forward.value.outputs.length = 2 ∧ forward.value.mappers = none ∧
    forward.value.category = some "Metal" ∧
    forward.value.details.get? "n" = some (.text "2,inputs itemMapper M") ∧
    forward.issues = [.unrecognizedLine "itemMapper outputs"] := by
  intro pre mid post given made forward
  obtain ⟨details, named, same, turned⟩ := @read_sections {} "R" pre mid post given made
    (by unfold Braceless; decide +kernel) (by decide +kernel) (by decide +kernel)
  refine ⟨same.trans turned.symm, ?_⟩
  rw [show forward = _ from same]
  dsimp only
  refine ⟨by decide +kernel, by decide +kernel, rfl, by decide +kernel, ?_, by decide +kernel⟩
  rw [named]
  decide +kernel

end RecipeBody

end CraftScript
