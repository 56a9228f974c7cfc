import CraftScript.Proofs.ItemParts

/-! Item lines in canonical form. They are lines of parts, with semicolons between the members of a
list, and are read as such. -/
namespace CraftScript.Canonical

open Text EntryLine ItemLine

section Lists

variable {kind wide : Char → Bool}

def Run.widen (wider : ∀ c, kind c → wide c) (run : Run kind) : Run wide :=
  ⟨run.text, run.nonempty, fun c inside => wider c (run.every c inside)⟩

def listing (wider : ∀ c, kind c → wide c) (runs : List (Run kind)) : Listing wide :=
  runs.map fun run => (run.widen wider, .semicolon)

theorem text_listing (wider : ∀ c, kind c → wide c) (runs : List (Run kind)) :
    Listing.text (listing wider runs) = listed runs := by
  induction runs with
  | nil => rfl
  | cons run runs ih =>
    cases runs with
    | nil => simp [listing, Listing.text, listed, Run.widen]
    | cons next runs =>
      have split : listed (run :: next :: runs) = run.text ++ ';' :: listed (next :: runs) := by
        simp [listed, List.intercalate_cons_cons]
      rw [split, ← ih]
      rfl

theorem names_listing (wider : ∀ c, kind c → wide c) (runs : List (Run kind)) :
    Listing.names (listing wider runs) = runs.map (·.string) := by
  rw [Listing.names, listing, List.map_map]
  rfl

theorem listOf_listed (solid : ∀ c, kind c → isBlank c = false) (whole : kind ';' = false)
    (whole' : kind ',' = false) (runs : List (Run kind)) :
    listOf (listed runs) = runs.map (·.string) := by
  rw [← text_listing (fun _ => id) runs, Listing.listOf_text solid whole whole', names_listing]

end Lists

namespace Attribute

theorem plainOr_of_isPlain (others : List Char) (c : Char) (plain : isPlain c) :
    plainOr others c := by
  simp [plainOr, plain]

theorem plainOr_of_isId (c : Char) (plain : isPlain c || c == '.') : plainOr ['.', '*'] c := by
  rcases Bool.or_eq_true_iff.mp plain with plain | point
  · exact plainOr_of_isPlain _ c plain
  · rw [beq_iff_eq.mp point]
    decide

def part : Attribute → Part
  | group ids => .group (listing plainOr_of_isId ids)
  | mapper name => .mapper (name.widen (plainOr_of_isPlain _))
  | mode word => .mode word
  | tags words => .tags (listing (plainOr_of_isPlain _) words)
  | flags words => .flags (listing (plainOr_of_isPlain _) words)

theorem text_part (form : Attribute) : form.part.text = form.text := by
  cases form with
  | group ids => exact congrArg bracket (text_listing _ ids)
  | mapper name => rfl
  | mode word => rfl
  | tags words => exact congrArg ("tags".toList ++ bracket ·) (text_listing _ words)
  | flags words => exact congrArg ("flags".toList ++ bracket ·) (text_listing _ words)

theorem lined_text (form : Attribute) : Lined form.text := by
  cases form with
  | group ids => exact lined_bracket (lined_listed (fun c => isLineChar_of_isId) ids)
  | mapper name => exact @lined_append "mapper:".toList _ (by decide) (lined_word name)
  | mode word => exact @lined_append "mode:".toList _ (by decide) (lined_word word)
  | tags words =>
    exact @lined_append "tags".toList _ (by decide) (lined_bracket (lined_words words))
  | flags words =>
    exact @lined_append "flags".toList _ (by decide) (lined_bracket (lined_words words))

end Attribute

namespace ItemForm

def parts (form : ItemForm) : List Part :=
  form.attributes.map Attribute.part

theorem text_eq (form : ItemForm) : form.text = lineText form.index form.parts := by
  have bare : Part.text ∘ Attribute.part = Attribute.text := funext Attribute.text_part
  have same : form.attributes.flatMap (' ' :: ·.text) =
      Pattern.spaced (form.parts.map Part.text) := by
    rw [parts, List.map_map, bare, Pattern.spaced, List.flatMap_map]
  exact congrArg (fun t => "item ".toList ++ (Nat.toDigits 10 form.index.toNat ++ t)) same

theorem lined_text (form : ItemForm) : Lined form.text := by
  have digits : Lined (Nat.toDigits 10 form.index.toNat) :=
    fun c inside => isLineChar_of_isAsciiDigit (isAsciiDigit_of_mem_toDigits inside)
  refine lined_append (by decide) (lined_append digits fun c inside => ?_)
  obtain ⟨part, -, here⟩ := List.mem_flatMap.mp inside
  exact lined_cons (by decide) part.lined_text c here

theorem sublist_kinds (form : ItemForm) :
    (form.parts.map Part.kind).Sublist [.group, .mapper, .mode, .tags, .flags] := by
  have option {α : Type} (f : α → Attribute) {kind : Part.Kind}
      (all : ∀ a, (f a).part.kind = kind) (found : Option α) :
      ((found.toList.map f).map (·.part.kind)).Sublist [kind] := by
    cases found <;> simp [all]
  have mapper := option .mapper (fun _ => rfl) form.mapper
  have mode := option .mode (fun _ => rfl) form.mode
  have tags := option .tags (fun _ => rfl) form.tags
  have flags := option .flags (fun _ => rfl) form.flags
  have others := ((mapper.append mode).append tags).append flags
  rw [← List.map_append, ← List.map_append, ← List.map_append] at others
  rw [parts, List.map_map]
  exact others.cons_cons _

theorem arranged_parts (form : ItemForm) : Arranged form.parts := by
  have kinds := form.sublist_kinds
  refine ⟨fun kind _ => ?_, .inl fun part member free => ?_⟩
  · have once := List.nodup_iff_count_le_one.mp (kinds.nodup (by decide)) kind
    simpa [List.count, List.countP_map, Function.comp_def, beq_eq_decide] using once
  · have listed := kinds.subset (List.mem_map_of_mem member)
    rw [free] at listed
    contradiction

theorem itemOfParts_parts (settings : Settings) (form : ItemForm) :
    itemOfParts settings form.index form.parts = form.item settings := by
  obtain ⟨index, ids, mapper, mode, tags, flags⟩ := form
  cases mapper <;> cases mode <;> cases tags <;> cases flags <;>
    simp [itemOfParts, item, namesOf, parts, attributes, Attribute.part, Part.kind, Part.names,
      names_listing, Run.widen, Run.string]

theorem item?_text (settings : Settings) (form : ItemForm) :
    item? settings form.text = some (form.item settings) := by
  rw [form.text_eq, item?_lineText settings form.index form.arranged_parts, form.itemOfParts_parts]

end ItemForm

end CraftScript.Canonical
