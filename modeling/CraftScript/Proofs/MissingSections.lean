import CraftScript.Proofs.BraceMatching
import CraftScript.Proofs.MapperRegions
import CraftScript.Proofs.SectionPlaces

/-! Sections that are missing from a body. A mapper ends at the next closing brace, so a body without
its mappers can have braces that close nothing. But none is left open, and no cut opens one, so every
head of a section that stands there has a section behind it. -/
namespace CraftScript

open Text

namespace Brace

/-- Every brace that opens is closed: from no place on do more open than close. -/
def Closing (t : Text) : Prop :=
  ∀ rest, rest <:+ t → rest.count '{' ≤ rest.count '}'

theorem Settles.closing {t : Text} (balanced : Balanced t) : Closing t := by
  rintro rest ⟨front, rfl⟩
  have sane := balanced.sane front (List.prefix_append front rest)
  have total := balanced.settled
  simp only [List.count_append] at total
  omega

namespace Closing

theorem cut {front region rest : Text} (closing : Closing (front ++ (region ++ rest)))
    (opens : region.count '}' ≤ region.count '{') : Closing (front ++ rest) := by
  rintro late ⟨early, same⟩
  rcases List.append_eq_append_iff.mp same with ⟨back, rfl, rfl⟩ | ⟨between, rfl, rfl⟩
  · have bound := closing (back ++ (region ++ rest)) ⟨early, by simp⟩
    simp only [List.count_append] at bound ⊢
    omega
  · exact closing late ⟨front ++ (region ++ between), by simp⟩

theorem exists_close? {front inside : Text} (closing : Closing (front ++ '{' :: inside)) :
    ∃ body rest, close? inside = some (body, rest) := by
  have bound := closing ('{' :: inside) (List.suffix_append front _)
  cases closed : close? inside with
  | some parts => exact ⟨parts.1, parts.2, rfl⟩
  | none =>
    have stays := close?_eq_none_iff.mp closed inside List.prefix_rfl
    rw [List.count_cons_self, List.count_cons_of_ne (by decide)] at bound
    omega

end Closing

end Brace

open Brace (Closing)

theorem Parting.closing_runs {α : Type} {grammar : Grammar α} {previous : Option Char}
    (opens : ∀ previous value region after, grammar previous value region after →
      region.count '}' ≤ region.count '{')
    {parting : Parting α} (sound : parting.Sound grammar previous) {front : Text}
    (closing : Closing (front ++ parting.source)) : Closing (front ++ parting.runs.flatten) := by
  induction parting generalizing previous front with
  | last run => simpa [runs, source] using closing
  | found run value region rest ih =>
    rw [source, ← List.append_assoc] at closing
    rw [runs, List.flatten_cons, ← List.append_assoc]
    exact ih sound.2.2 (closing.cut (opens _ _ _ _ sound.2.1))

namespace RecipeBody

theorem IsMapper.opens {previous : Option Char} {block : Block} {region after : Text}
    (written : IsMapper previous block region after) : region.count '}' ≤ region.count '{' := by
  obtain ⟨-, gap, gap', -, blanks, -, every, blanks', shut, rfl⟩ := written
  have free : Braceless ("itemMapper".toList ++ gap ++ block.name ++ gap') := by
    simp only [braceless_append]
    exact ⟨⟨⟨by unfold Braceless; decide, braceless_blanks blanks⟩, braceless_name every⟩,
      braceless_blanks blanks'⟩
  generalize "itemMapper".toList ++ gap ++ block.name ++ gap' = head at free ⊢
  simp [Brace.braced, List.count_append, List.count_eq_zero.mpr free.not_mem.2,
    List.count_eq_zero.mpr shut]
  omega

theorem closing_takeMappers {body : Text} (closing : Closing body) :
    Closing (takeMappers body).2 := by
  obtain ⟨parting, rfl, sound⟩ := Parting.exists_sound reads_mapper none body
  rw [takeMappers_source sound]
  exact @Parting.closing_runs _ _ _ (fun _ _ _ _ => IsMapper.opens) _ sound [] closing

/-- A section's head stands in the text: the keyword at the start of a word, blanks or none, and a
brace. -/
def HasHead (keyword t : Text) : Prop :=
  ∃ front gap inside, t = front ++ (keyword ++ gap ++ '{' :: inside) ∧
    beginsWord (lastOf none front) ∧ ∀ c ∈ gap, isBlank c

theorem first?_isSome_iff (keyword t : Text) :
    ((sectionOpener keyword).first? t).isSome ↔ HasHead keyword t := by
  constructor
  · intro reads
    obtain ⟨found, first⟩ := Option.isSome_iff_exists.mp reads
    obtain ⟨here, split, read⟩ := Pattern.firstFrom?_eq_some first
    obtain ⟨begins, gap, blanks, rfl⟩ := sectionOpener_eq_some_iff.mp read
    exact ⟨found.before, gap, found.after, split, begins, blanks⟩
  · rintro ⟨front, gap, inside, split, begins, blanks⟩
    rw [Option.isSome_iff_ne_none]
    intro missing
    obtain ⟨c, back, head⟩ : ∃ c back, keyword ++ gap ++ '{' :: inside = c :: back :=
      List.exists_cons_of_ne_nil (by simp)
    have silent := Pattern.silent_of_firstFrom? missing front c back (by rw [split, head])
    rw [List.append_nil, ← head, sectionOpener_eq_some_iff.mpr ⟨begins, gap, blanks, rfl⟩] at silent
    contradiction

instance (keyword t : Text) : Decidable (HasHead keyword t) :=
  decidable_of_iff _ (first?_isSome_iff keyword t)

theorem exists_close?_of_first? {keyword t : Text} (closing : Closing t) {found : Occurrence Unit}
    (first : (sectionOpener keyword).first? t = some found) :
    ∃ inside rest, Brace.close? found.after = some (inside, rest) := by
  obtain ⟨here, rfl, read⟩ := Pattern.firstFrom?_eq_some first
  obtain ⟨-, gap, -, rfl⟩ := sectionOpener_eq_some_iff.mp read
  rw [← List.append_assoc] at closing
  exact closing.exists_close?

/-- A section is cut out whole, or its head does not stand in the text. -/
theorem cutSection?_cases (keyword : Text) {t : Text} (closing : Closing t) :
    (¬ HasHead keyword t ∧ cutSection? keyword t = none) ∨
      ∃ before gap inside after, t = before ++ (keyword ++ gap ++ Brace.braced inside ++ after) ∧
        HasHead keyword t ∧ (∀ c ∈ gap, isBlank c) ∧ Brace.Balanced inside ∧
        cutSection? keyword t = some (inside, before ++ after) := by
  rw [← first?_isSome_iff]
  cases first : (sectionOpener keyword).first? t with
  | none => exact .inl ⟨by simp, by simp [cutSection?, first]⟩
  | some found =>
    obtain ⟨inside, after, closed⟩ := exists_close?_of_first? closing first
    obtain ⟨here, split, read⟩ := Pattern.firstFrom?_eq_some first
    obtain ⟨-, gap, blanks, rfl⟩ := sectionOpener_eq_some_iff.mp read
    obtain ⟨parts, balanced⟩ := Brace.close?_eq_some_iff.mp closed
    refine .inr ⟨found.before, gap, inside, after, ?_, rfl, blanks, balanced, ?_⟩
    · rw [split, parts]
      simp [Brace.braced]
    · simp [cutSection?, first, closed]

theorem not_mem_issues_read (settings : Settings) (t : Text) (recipe part : String) :
    .missingSection recipe part ∉ (Section.read settings t).issues := by
  rw [Section.issues_read]
  simp

theorem mem_issues_takeSection (settings : Settings) (name keyword : String) {t : Text}
    (closing : Closing t) (recipe part : String) :
    .missingSection recipe part ∈ (takeSection settings name keyword t).issues ↔
      recipe = name ∧ part = keyword ∧ ¬ HasHead keyword.toList t := by
  rcases cutSection?_cases keyword.toList closing with
    ⟨missing, uncut⟩ | ⟨before, gap, inside, after, -, there, -, -, cut⟩
  · simp [takeSection, uncut, missing]
  · simp [takeSection_of_cut settings name cut, there, not_mem_issues_read]

theorem closing_takeSection (settings : Settings) (name : String) {keyword : String}
    (word : IsKeyword keyword.toList) {t : Text} (closing : Closing t) :
    Closing (takeSection settings name keyword t).value.2 := by
  rcases cutSection?_cases keyword.toList closing with
    ⟨-, uncut⟩ | ⟨before, gap, inside, after, rfl, -, blanks, balanced, cut⟩
  · simpa [takeSection, uncut] using closing
  · have even := (Brace.settles_append (Brace.balanced_of_braceless (braceless_append.mpr
      ⟨word.braceless, braceless_blanks blanks⟩))
      (Brace.balanced_enclosed balanced ((Brace.settles_nil 0).mpr rfl))).settled
    rw [takeSection_of_cut settings name cut]
    refine closing.cut ?_
    rw [Brace.braced, List.cons_append, even, Nat.zero_add]

theorem balanced_of_body? {block : RecipeSource} {body : Text} (there : body ∈ block.body?) :
    Brace.Balanced body := by
  obtain ⟨⟨inside, after⟩, found, rfl⟩ := Option.map_eq_some_iff.mp there
  exact (Brace.firstBlock?_eq_some_iff.mp found).choose_spec.2.2

theorem balanced_of_bodies {keyword : Keyword} {t body : Text} {name : String}
    (there : body ∈ (Block.bodies (Block.all keyword t).value).get? name) :
    Brace.Balanced body := by
  rw [Block.bodies, Dict.get?_ofList, Option.mem_def, Dict.lastNamed?, Option.map_eq_some_iff] at there
  obtain ⟨entry, last, rfl⟩ := there
  obtain ⟨block, member, rfl⟩ := List.mem_map.mp (List.mem_of_mem_filter (List.mem_of_getLast? last))
  obtain ⟨_, _, _, _, -, closed⟩ := Block.exists_of_mem_scanFrom member
  exact (Brace.close?_eq_some_iff.mp closed).2

/-- The bodies of recipes and of components are balanced. In a balanced body a section is reported
missing exactly when its head does not stand in what is left to search: the inputs' in the body without
its mappers, the outputs' in what is then left without the inputs. Where a head stands, its brace is
closed. -/
theorem missing_iff_headless :
    (∀ block : RecipeSource, ∀ body ∈ block.body?, Brace.Balanced body) ∧
    (∀ t name, ∀ body ∈ (Block.bodies (Block.all .component t).value).get? name,
      Brace.Balanced body) ∧
    ∀ (settings : Settings) (name : String) (body : Text), Brace.Balanced body →
      let left := (takeMappers body).2
      let behind := (takeSection settings name "inputs" left).value.2
      (∀ recipe part, .missingSection recipe part ∈ (read settings name body).issues ↔
        recipe = name ∧ (part = "inputs" ∧ ¬ HasHead "inputs".toList left ∨
          part = "outputs" ∧ ¬ HasHead "outputs".toList behind)) ∧
      (∀ found ∈ (sectionOpener "inputs".toList).first? left,
        (Brace.close? found.after).isSome) ∧
      ∀ found ∈ (sectionOpener "outputs".toList).first? behind,
        (Brace.close? found.after).isSome := by
  refine ⟨fun block body => balanced_of_body?, fun t name body => balanced_of_bodies, ?_⟩
  intro settings name body balanced left behind
  have closing : Closing left := closing_takeMappers balanced.closing
  have closing' : Closing behind := closing_takeSection settings name (by decide) closing
  refine ⟨fun recipe part => ?_, fun found first => ?_, fun found first => ?_⟩
  · have issues : (read settings name body).issues =
        (takeSection settings name "inputs" left).issues ++
          (takeSection settings name "outputs" behind).issues := (read_steps rfl rfl rfl).2
    rw [issues, List.mem_append, mem_issues_takeSection _ _ _ closing,
      mem_issues_takeSection _ _ _ closing', ← and_or_left]
  · obtain ⟨inside, rest, closed⟩ := exists_close?_of_first? closing first
    rw [closed]
    rfl
  · obtain ⟨inside, rest, closed⟩ := exists_close?_of_first? closing' first
    rw [closed]
    rfl

/-- A mapper with a brace too many leaves one that closes nothing; the inputs behind it are found, and
outputs without a brace are missing. -/
theorem missing_iff_headless_mapper :
    let body := " itemMapper M \x7b k \x7b = v \x7d \x7d inputs\n\x7b x \x7b \x7d \x7d outputs ".toList
    Brace.Balanced body ∧ (takeMappers body).2 = "  \x7d inputs\n\x7b x \x7b \x7d \x7d outputs ".toList ∧
      .missingSection "R" "inputs" ∉ (read {} "R" body).issues ∧
      .missingSection "R" "outputs" ∈ (read {} "R" body).issues := by
  intro body
  have balanced : Brace.Balanced body :=
    (Brace.close?_eq_some_iff.mp (by decide +kernel : Brace.close? (body ++ ['}']) = some (body, []))).2
  obtain ⟨exactly, -⟩ := missing_iff_headless.2.2 {} "R" body balanced
  refine ⟨balanced, by decide +kernel, ?_, ?_⟩
  · rw [exactly]
    decide +kernel
  · rw [exactly]
    decide +kernel

end RecipeBody

end CraftScript
