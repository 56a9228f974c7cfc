import CraftScript.Proofs.Heads
import CraftScript.Proofs.Partings
import CraftScript.Proofs.Tables

/-! Mappers, and what is left of a body without them. A mapper begins where a word begins, so nothing
before it can join what follows it to a keyword. -/
namespace CraftScript

namespace Dict

variable {α β : Type}

theorem map_lastNamed? (f : α → β) (name : String) (entries : List (String × α)) :
    (lastNamed? name entries).map f =
      lastNamed? name (entries.map fun entry => (entry.1, f entry.2)) := by
  simp only [lastNamed?, List.filter_map, List.getLast?_map, Option.map_map]
  rfl

end Dict

namespace RecipeBody

open Text Dict

/-- A mapper as it is written: the keyword at the start of a word, blanks, the name, blanks or none,
and in braces all that comes before the next closing brace. -/
def IsMapper : Grammar Block := fun previous block region _ =>
  beginsWord previous ∧ ∃ gap gap', gap ≠ [] ∧ (∀ c ∈ gap, isBlank c) ∧ block.name ≠ [] ∧
    (∀ c ∈ block.name, Block.isNameChar c) ∧ (∀ c ∈ gap', isBlank c) ∧ '}' ∉ block.body ∧
    region = "itemMapper".toList ++ gap ++ block.name ++ gap' ++ Brace.braced block.body

theorem reads_mapper : mapper.Reads IsMapper where
  iff {previous t after block} := by
    simp only [mapper_eq_some_iff, Block.opener_eq_some_iff, splitOnce?_eq_some_iff]
    constructor
    · rintro ⟨inside, ⟨begins, gap, gap', spaced, blanks, named, every, blanks', rfl⟩, shut, rfl⟩
      exact ⟨_, by simp [Brace.braced], begins, gap, gap', spaced, blanks, named, every, blanks', shut,
        rfl⟩
    · rintro ⟨_, rfl, begins, gap, gap', spaced, blanks, named, every, blanks', shut, rfl⟩
      exact ⟨block.body ++ '}' :: after,
        ⟨begins, gap, gap', spaced, blanks, named, every, blanks', by simp [Brace.braced]⟩, shut, rfl⟩
  filled := by
    rintro previous block region after ⟨-, gap, gap', -, -, -, -, -, -, rfl⟩
    simp [Brace.braced]

theorem IsMapper.not_mem_keyword {c : Char} {block : Block} {region after : Text}
    (written : IsMapper (some c) block region after) : c ∉ "itemMapper".toList := by
  intro inside
  have worded : ∀ d ∈ "itemMapper".toList, isWord d := by decide +kernel
  have begins : beginsWord (some c) := written.1
  simp [beginsWord, worded c inside] at begins

def pairs (t : Text) : List (String × String) :=
  (Property.all t).map fun property => (String.ofList property.key, String.ofList property.value)

theorem get?_mapperTable (block : Block) :
    (mapperTable block).get? = fun key => lastNamed? key (pairs block.body) := by
  funext key
  exact get?_ofList key (pairs block.body)

theorem takeMappers_source {parting : Parting Block} (sound : parting.Sound IsMapper none) :
    takeMappers parting.source =
      (Dict.ofList (parting.values.map fun block => (String.ofList block.name, mapperTable block)),
        parting.runs.flatten) := by
  rw [takeMappers, Parting.takeAll_source reads_mapper sound]

/-- The mappers part a body in one way: they begin nowhere else, and all else is left as it is, one run
behind the other. The table gives for a name the last value of each key in the last mapper of that
name, and nothing for other names. Where the keyword stands in what is left, it stood in one of the
runs. -/
theorem takeMappers_parting (body : Text) :
    ∃ parting : Parting Block,
      (∀ other : Parting Block,
        other.source = body ∧ other.Sound IsMapper none ↔ other = parting) ∧
      (takeMappers body).2 = parting.runs.flatten ∧
      (∀ name, ((takeMappers body).1.get? name).map Dict.get? =
        lastNamed? name (parting.values.map fun block =>
          (String.ofList block.name, fun key => lastNamed? key (pairs block.body)))) ∧
      ∀ front back, (takeMappers body).2 = front ++ "itemMapper".toList ++ back ↔
        ∃ early run late before after, parting.runs = early ++ run :: late ∧
          run = before ++ "itemMapper".toList ++ after ∧ front = early.flatten ++ before ∧
          back = after ++ late.flatten := by
  obtain ⟨parting, only⟩ := Parting.exists_only reads_mapper body
  obtain ⟨rfl, sound⟩ := (only parting).mpr rfl
  have taken := takeMappers_source sound
  refine ⟨parting, only, by rw [taken], fun name => ?_, fun front back => ?_⟩
  · rw [taken, get?_ofList, map_lastNamed?, List.map_map]
    simp only [Function.comp_def, get?_mapperTable]
  · rw [taken]
    exact Parting.flatten_runs_eq_iff sound fun c block region after written =>
      written.not_mem_keyword

example : (takeMappers "item itemMapper M\x7ba = 1\x7ditemMapper M\x7b\x7b a = 2, a = 3\x7dMapper".toList).2 =
    "item Mapper".toList := by decide +kernel

end RecipeBody

end CraftScript
