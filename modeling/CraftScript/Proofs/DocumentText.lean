import CraftScript.Document.Decoding
import CraftScript.Proofs.JsonText
import CraftScript.Proofs.Tables

/-! Documents read back from their text. Decoding undoes encoding record by record: a member that is
left out is one whose absence decodes to the value it has. -/
namespace CraftScript

open Json (Fault Sound Number strings member? names? table)

namespace Json

theorem sound_strings (items : List String) : Sound (strings items) := by
  apply Sound.list
  intro item inside
  obtain ⟨s, -, rfl⟩ := List.mem_map.mp inside
  exact .string s

theorem sound_table {α : Type} {encode : α → Json} {dict : Dict α}
    (each : ∀ entry ∈ dict.entries, Sound (encode entry.2)) : Sound (table encode dict) := by
  apply Sound.record
  intro member inside
  obtain ⟨entry, known, rfl⟩ := List.mem_map.mp inside
  exact each entry known

@[simp] theorem forall_mem_member? {key : String} {value : Option Json} {P : String × Json → Prop} :
    (∀ member ∈ member? key value, P member) ↔ ∀ j, value = some j → P (key, j) := by
  cases value <;> simp [member?]

end Json

namespace Decoder

theorem list_map {α : Type} {decoder : Decoder α} {encode : α → Json} {values : List α}
    (each : ∀ value ∈ values, decoder (encode value) = .ok value) :
    list decoder (.list (values.map encode)) = .ok values := by
  have whole : (values.map encode).mapM decoder = .ok values := by
    induction values with
    | nil => rfl
    | cons value values ih =>
      have later := ih fun other inside => each other (List.mem_cons_of_mem _ inside)
      rw [List.map_cons, List.mapM_cons, each value (by simp), later]
      rfl
  simp [list, Json.list, whole, bind, Except.bind, close]

theorem list_strings (items : List String) : list string (strings items) = .ok items :=
  list_map fun _ _ => rfl

theorem string_string (s : String) : string (.string s) = .ok s := rfl

theorem bool_bool (b : Bool) : bool (.bool b) = .ok b := rfl

theorem nameSet_strings (set : NameSet) : nameSet (strings set.names) = .ok set := by
  rw [nameSet, list_strings]
  exact congrArg Except.ok set.ofList_names

theorem dict_table {α : Type} {decoder : Decoder α} {encode : α → Json} {dict : Dict α}
    (each : ∀ entry ∈ dict.entries, decoder (encode entry.2) = .ok entry.2) :
    Decoder.dict decoder (table encode dict) = .ok dict := by
  have folded {entries : List (String × α)} (start : Dict α)
      (each : ∀ entry ∈ entries, decoder (encode entry.2) = .ok entry.2) :
      (entries.map fun entry => (entry.1, encode entry.2)).foldlM
          (fun table member => return table.insert member.1 (← decoder member.2)) start =
        (.ok (entries.foldl (fun dict entry => dict.insert entry.1 entry.2) start) :
          Except Fault (Dict α)) := by
    induction entries generalizing start with
    | nil => rfl
    | cons entry entries ih =>
      rw [List.map_cons, List.foldlM_cons, each entry (by simp)]
      exact ih _ fun other inside => each other (List.mem_cons_of_mem _ inside)
  have whole := folded ∅ each
  have same : dict.entries.foldl (fun dict entry => dict.insert entry.1 entry.2) ∅ = dict :=
    dict.ofList_entries
  rw [same] at whole
  simp only [Decoder.dict, members, table, Json.record, whole]
  rfl

theorem index_natural (n : UInt32) : index (.natural n.toNat) = .ok n := by
  have small : (0 : Int) ≤ n.toNat ∧ (n.toNat : Int) < UInt32.size :=
    ⟨Int.natCast_nonneg _, Int.ofNat_lt.mpr n.toNat_lt⟩
  simp only [index, Json.natural, if_pos small, Int.toNat_natCast, UInt32.ofNat_toNat]

theorem mapM_optional {α : Type} {decoder : Decoder α} (encode : α → Json) (value : Option α)
    (decoded : ∀ a, value = some a → optional decoder (encode a) = .ok (some a)) :
    (value.map encode).mapM (optional decoder) = .ok (value.map some) := by
  cases value with
  | none => rfl
  | some a =>
    rw [Option.map_some, Option.mapM_some, decoded a rfl]
    rfl

theorem mapM_string (value : Option String) :
    (value.map .string).mapM (optional string) = .ok (value.map some) :=
  mapM_optional .string value fun _ _ => rfl

theorem getD_optional {α : Type} (value : Option α) : (value.map some).getD none = value := by
  cases value <;> rfl

theorem mapM_names? (set : NameSet) :
    (names? set).mapM nameSet = .ok (if set.isEmpty then none else some set) := by
  unfold names?
  split
  · rfl
  · rw [Option.mapM_some, nameSet_strings]
    rfl

theorem getD_names (set : NameSet) : (if set.isEmpty then none else some set).getD ∅ = set := by
  split
  next empty =>
    obtain ⟨names, sorted⟩ := set
    cases names with
    | nil => rfl
    | cons name names => contradiction
  next => rfl

def Leads {α : Type} (step : α → String → Json → Except Fault α) (members : List (String × Json))
    (start stop : α) : Prop :=
  members.foldlM (fun state member => step state member.1 member.2) start = .ok stop

section Leads

variable {α : Type} {step : α → String → Json → Except Fault α} {start middle stop : α}

theorem leads_nil : Leads step [] start start := rfl

theorem Leads.append {front back : List (String × Json)} (first : Leads step front start middle)
    (second : Leads step back middle stop) : Leads step (front ++ back) start stop := by
  rw [Leads] at first second ⊢
  rw [List.foldlM_append, first]
  exact second

theorem leads_cons {key : String} {j : Json} {members : List (String × Json)}
    (first : step start key j = .ok middle) (second : Leads step members middle stop) :
    Leads step ((key, j) :: members) start stop := by
  rw [Leads] at second ⊢
  rw [List.foldlM_cons, first]
  exact second

variable (step) in
theorem leads_member? (key : String) {β : Type} {decoder : Decoder β} (fill : Option β → α)
    {value : Option Json} {found : Option β}
    (fills : ∀ j, step (fill none) key j = (do return fill (← once none decoder j)))
    (decoded : value.mapM decoder = .ok found) :
    Leads step (member? key value) (fill none) (fill found) := by
  cases value with
  | none =>
    cases decoded
    exact leads_nil
  | some j =>
    refine leads_cons ((fills j).trans ?_) leads_nil
    obtain ⟨b, read, rest⟩ := bind_eq_ok_iff.mp decoded
    cases rest
    rw [once, read]
    rfl

variable (step) in
theorem leads_one (key : String) {β : Type} {decoder : Decoder β} (fill : Option β → α) {j : Json}
    {b : β} (fills : ∀ j, step (fill none) key j = (do return fill (← once none decoder j)))
    (decoded : decoder j = .ok b) : Leads step [(key, j)] (fill none) (fill (some b)) := by
  apply @leads_member? _ step key _ decoder fill (some j) (some b) fills
  rw [Option.mapM_some, decoded]
  rfl

theorem Leads.members {found : List (String × Json)} (leads : Leads step found start stop) :
    Decoder.members step start (.record found) = .ok stop := by
  rw [Leads] at leads
  simp only [Decoder.members, Json.record, leads]
  rfl

theorem Leads.fields {found : List (String × Json)} (leads : Leads step found start stop)
    (keys : List String) (surplus : Fault) :
    Decoder.fields keys surplus step start (.record found) = .ok stop :=
  leads.members

end Leads

theorem wholeItems_strings (room : Nat) (items : List String) :
    wholeItems room (items.map .string) = .ok () := by
  induction items with
  | nil => rfl
  | cons item items ih => simpa [wholeItems, whole, bind, Except.bind] using ih

theorem whole_strings (room : Nat) (items : List String) :
    whole (room + 1) (strings items) = .ok () := by
  simp only [whole, strings, Json.list, Nat.add_one_ne_zero, if_false, Nat.add_one_sub_one,
    wholeItems_strings]
  rfl

end Decoder

namespace Amount

/-- The amount is read back from its text, which an infinite one never is. -/
abbrev ReadsBack (a : Amount) : Prop :=
  (Number.real a).ReadsBack

theorem ReadsBack.toJson {a : Amount} (back : a.ReadsBack) : Json.amount a = .number (.real a) := by
  cases a with
  | finite => rfl
  | infinite negative =>
    have unreadable : ¬ (infinite negative).ReadsBack := by cases negative <;> decide
    exact absurd back unreadable

theorem ReadsBack.sound {a : Amount} (back : a.ReadsBack) : Sound (.amount a) := by
  rw [back.toJson]
  exact .number back

theorem ReadsBack.decoded {a : Amount} (back : a.ReadsBack) :
    Decoder.amount (.amount a) = .ok a := by
  rw [back.toJson]
  rfl

end Amount

open Decoder

namespace Fluid

theorem decoded_part {fluid : Fluid} (back : fluid.amount.ReadsBack) :
    partDecoder fluid.toJson = .ok fluid := by
  have types := leads_one (Draft.step "fluidType") "fluidType" (fun found => { types := found })
    (fun _ => rfl) (list_strings fluid.types)
  have amount := leads_one (Draft.step "fluidType") "amount"
    (fun found => { types := some fluid.types, amount := found }) (fun _ => rfl) back.decoded
  exact bind_eq_ok_iff.mpr ⟨_, (types.append amount).fields _ _, rfl⟩

theorem decoded {fluid : Fluid} (back : fluid.amount.ReadsBack) (kind : String) :
    decoder (.record (("kind", .string kind) :: fluid.members)) = .ok fluid := by
  have amount := leads_one (Draft.step "items") "amount" (fun found => { amount := found })
    (fun _ => rfl) back.decoded
  have types := leads_one (Draft.step "items") "items"
    (fun found => { amount := some fluid.amount, types := found }) (fun _ => rfl)
    (list_strings fluid.types)
  have passed : Draft.step "items" {} "kind" (.string kind) = .ok {} := rfl
  exact bind_eq_ok_iff.mpr ⟨_, (leads_cons passed (amount.append types)).fields _ _, rfl⟩

end Fluid

namespace Item

def draft (item : Item) : Draft where
  index := some item.index
  ids := some item.ids
  mapper := item.mapper.map some
  mode := item.mode.map some
  tags := if item.tags.isEmpty then none else some item.tags
  flags := if item.flags.isEmpty then none else some item.flags
  fluid := item.fluid.map some

theorem decoded {item : Item} (back : ∀ fluid, item.fluid = some fluid → fluid.amount.ReadsBack)
    (kind : String) : decoder (.record (("kind", .string kind) :: item.members)) = .ok item := by
  have passed : Draft.step {} "kind" (.string kind) = .ok {} := rfl
  have index := leads_one Draft.step "index" (fun found => { index := found }) (fun _ => rfl)
    (index_natural item.index)
  have ids := leads_one Draft.step "items"
    (fun found => { index := item.draft.index, ids := found }) (fun _ => rfl)
    (list_strings item.ids)
  have mapper := leads_member? Draft.step "mapper"
    (fun found => { index := item.draft.index, ids := item.draft.ids, mapper := found })
    (fun _ => rfl) (mapM_string item.mapper)
  have mode := leads_member? Draft.step "mode"
    (fun found => { item.draft with mode := found, tags := none, flags := none, fluid := none })
    (fun _ => rfl) (mapM_string item.mode)
  have tags := leads_member? Draft.step "tags"
    (fun found => { item.draft with tags := found, flags := none, fluid := none })
    (fun _ => rfl) (mapM_names? item.tags)
  have flags := leads_member? Draft.step "flags"
    (fun found => { item.draft with flags := found, fluid := none }) (fun _ => rfl)
    (mapM_names? item.flags)
  have fluid := leads_member? Draft.step "fluidModifier"
    (fun found => { item.draft with fluid := found }) (fun _ => rfl)
    (mapM_optional Fluid.toJson item.fluid fun fluid there =>
      congrArg (some <$> ·) (Fluid.decoded_part (back fluid there)))
  have leads := leads_cons passed
    ((((((index.append ids).append mapper).append mode).append tags).append flags).append fluid)
  refine bind_eq_ok_iff.mpr ⟨item.draft, leads.fields _ _, ?_⟩
  simp [draft, required, bind, Except.bind, pure, Except.pure, getD_optional, getD_names]

end Item

namespace Energy

theorem decoded {energy : Energy} (back : energy.amount.ReadsBack) (kind : String) :
    decoder (.record (("kind", .string kind) :: energy.members)) = .ok energy := by
  have passed : Draft.step {} "kind" (.string kind) = .ok {} := rfl
  have amount := leads_one Draft.step "amount" (fun found => { amount := found }) (fun _ => rfl)
    back.decoded
  have type := leads_one Draft.step "type"
    (fun found => { amount := some energy.amount, type := found }) (fun _ => rfl)
    (string_string energy.type)
  have modifiers := leads_member? Draft.step "modifiers"
    (fun found => { amount := some energy.amount, type := some energy.type, modifiers := found })
    (fun _ => rfl) (mapM_string energy.modifiers)
  have leads := leads_cons passed ((amount.append type).append modifiers)
  refine bind_eq_ok_iff.mpr ⟨_, leads.fields _ _, ?_⟩
  simp [required, bind, Except.bind, pure, Except.pure, getD_optional]

end Energy

namespace Skin

theorem decoded (skin : Skin) (kind : String) :
    decoder (.record (("kind", .string kind) :: skin.members)) = .ok skin := by
  have passed : Draft.step {} "kind" (.string kind) = .ok {} := rfl
  have displayName := leads_member? Draft.step "displayName" (fun found => { displayName := found })
    (fun _ => rfl) (mapM_string skin.displayName)
  have icon := leads_member? Draft.step "icon"
    (fun found => { displayName := skin.displayName.map some, icon := found }) (fun _ => rfl)
    (mapM_string skin.icon)
  have leads := leads_cons passed (displayName.append icon)
  refine bind_eq_ok_iff.mpr ⟨_, leads.fields _ _, ?_⟩
  simp [pure, Except.pure, getD_optional]

end Skin

namespace Entry

def Kept (room : Nat) (member : String × Json) : Prop :=
  member.1 ≠ "kind" ∧ Sound member.2 ∧ whole room member.2 = .ok ()

theorem leads_kept {room : Nat} {members : List (String × Json)} (found : Option Kind)
    (kept : ∀ member ∈ members, Kept room member) :
    Leads (kindStep room) members found found := by
  induction members with
  | nil => exact leads_nil
  | cons member members ih =>
    obtain ⟨other, -, read⟩ := kept member (by simp)
    apply leads_cons _ (ih fun later inside => kept later (List.mem_cons_of_mem _ inside))
    rw [kindStep, if_neg other, read]
    rfl

theorem kept_string {room : Nat} {key : String} (other : key ≠ "kind") (s : String) :
    Kept room (key, .string s) :=
  ⟨other, .string s, rfl⟩

theorem kept_strings {room : Nat} {key : String} (other : key ≠ "kind") (items : List String) :
    Kept (room + 1) (key, strings items) :=
  ⟨other, Json.sound_strings items, whole_strings room items⟩

theorem kept_amount {room : Nat} {a : Amount} (back : a.ReadsBack) :
    Kept room ("amount", .amount a) := by
  have read : whole room (.amount a) = .ok () := by rw [back.toJson]; rfl
  exact ⟨by simp, back.sound, read⟩

theorem kept_string? {room : Nat} {key : String} (other : key ≠ "kind") (value : Option String) :
    ∀ member ∈ member? key (value.map .string), Kept room member := by
  rw [Json.forall_mem_member?]
  intro j there
  obtain ⟨s, -, rfl⟩ := Option.map_eq_some_iff.mp there
  exact kept_string other s

theorem kept_names? {room : Nat} {key : String} (other : key ≠ "kind") (set : NameSet) :
    ∀ member ∈ member? key (names? set), Kept (room + 1) member := by
  rw [Json.forall_mem_member?]
  intro j there
  unfold names? at there
  split at there
  · contradiction
  · cases there
    exact kept_strings other set.names

theorem kept_part {room : Nat} {fluid : Fluid} (back : fluid.amount.ReadsBack) :
    Kept (room + 2) ("fluidModifier", fluid.toJson) := by
  have sound : Sound fluid.toJson := by
    apply Sound.record
    simp only [List.forall_mem_cons]
    exact ⟨Json.sound_strings _, back.sound, by simp⟩
  have read : whole (room + 2) fluid.toJson = .ok () := by
    simp [whole, wholeMembers, Fluid.toJson, Json.record, whole_strings, back.toJson, bind,
      Except.bind, close]
  exact ⟨by simp, sound, read⟩

theorem kept_item {item : Item} (back : ∀ fluid, item.fluid = some fluid → fluid.amount.ReadsBack)
    (room : Nat) : ∀ member ∈ item.members, Kept (room + 2) member := by
  have small : item.index.toNat < UInt64.size := lt_trans item.index.toNat_lt (by decide)
  have index : Kept (room + 2) ("index", .natural item.index.toNat) :=
    ⟨by simp, .number (Number.readsBack_integer small), rfl⟩
  have fluid : ∀ member ∈ member? "fluidModifier" (item.fluid.map Fluid.toJson),
      Kept (room + 2) member := by
    rw [Json.forall_mem_member?]
    intro j there
    obtain ⟨fluid, known, rfl⟩ := Option.map_eq_some_iff.mp there
    exact kept_part (back fluid known)
  simp only [Item.members, List.forall_mem_append, List.forall_mem_cons]
  exact ⟨⟨⟨⟨⟨⟨index, kept_strings (by decide) _, by simp⟩, kept_string? (by decide) _⟩,
    kept_string? (by decide) _⟩, kept_names? (by decide) _⟩, kept_names? (by decide) _⟩, fluid⟩

theorem kept_fluid {fluid : Fluid} (back : fluid.amount.ReadsBack) (room : Nat) :
    ∀ member ∈ fluid.members, Kept (room + 2) member := by
  simp only [Fluid.members, List.forall_mem_cons]
  exact ⟨kept_amount back, kept_strings (by decide) _, by simp⟩

theorem kept_energy {energy : Energy} (back : energy.amount.ReadsBack) (room : Nat) :
    ∀ member ∈ energy.members, Kept (room + 2) member := by
  simp only [Energy.members, List.forall_mem_append, List.forall_mem_cons]
  exact ⟨⟨kept_amount back, kept_string (by decide) _, by simp⟩, kept_string? (by decide) _⟩

theorem kept_skin (skin : Skin) (room : Nat) : ∀ member ∈ skin.members, Kept (room + 2) member := by
  rw [Skin.members, List.forall_mem_append]
  exact ⟨kept_string? (by decide) _, kept_string? (by decide) _⟩

def amount? : Entry → Option Amount
  | item i => i.fluid.map (·.amount)
  | fluid f => some f.amount
  | energy e => some e.amount
  | skin _ => none

theorem sound_kind {room : Nat} {members : List (String × Json)}
    (kept : ∀ member ∈ members, Kept room member) (word : String) :
    Sound (.record (("kind", .string word) :: members)) := by
  apply Sound.record
  rw [List.forall_mem_cons]
  exact ⟨.string word, fun member inside => (kept member inside).2.1⟩

theorem decoder_kind {room : Nat} {members : List (String × Json)}
    (kept : ∀ member ∈ members, Kept (room + 2) member) {word : String} {found : Kind}
    (spelled : kind (.string word) = .ok found) :
    decoder (room + 3) (.record (("kind", .string word) :: members)) =
      ofKind (.record (("kind", .string word) :: members)) found := by
  have first : kindStep (room + 2) none "kind" (.string word) = .ok (some found) := by
    rw [kindStep, if_pos rfl, once, spelled]
    rfl
  have read := (leads_cons first (leads_kept (some found) kept)).members
  change (Decoder.members (kindStep (room + 2)) none _ >>= fun found =>
    required found >>= ofKind _) = _
  rw [read]
  rfl

theorem decoded {entry : Entry} (back : ∀ a, entry.amount? = some a → a.ReadsBack) (room : Nat) :
    Sound entry.toJson ∧ decoder (room + 3) entry.toJson = .ok entry := by
  cases entry with
  | item i =>
    have back : ∀ fluid, i.fluid = some fluid → fluid.amount.ReadsBack :=
      fun fluid there => back _ (by simp [amount?, there])
    have kept := kept_item back room
    refine ⟨sound_kind kept "item", ?_⟩
    rw [toJson, decoder_kind kept rfl, ofKind, Item.decoded back]
    rfl
  | fluid f =>
    have back : f.amount.ReadsBack := back _ rfl
    have kept := kept_fluid back room
    refine ⟨sound_kind kept "fluid", ?_⟩
    rw [toJson, decoder_kind kept rfl, ofKind, Fluid.decoded back]
    rfl
  | energy e =>
    have back : e.amount.ReadsBack := back _ rfl
    have kept := kept_energy back room
    refine ⟨sound_kind kept "energy", ?_⟩
    rw [toJson, decoder_kind kept rfl, ofKind, Energy.decoded back]
    rfl
  | skin s =>
    have kept := kept_skin s room
    refine ⟨sound_kind kept "skin", ?_⟩
    rw [toJson, decoder_kind kept rfl, ofKind, Skin.decoded]
    rfl

end Entry

namespace Detail

theorem sound_toJson (detail : Detail) : Sound detail.toJson := by
  cases detail with
  | list items => exact Json.sound_strings items
  | text value => exact .string value

theorem decoded (detail : Detail) (room : Nat) : decoder (room + 1) detail.toJson = .ok detail := by
  cases detail with
  | list items =>
    refine bind_eq_ok_iff.mpr ⟨(), whole_strings room items, ?_⟩
    exact bind_eq_ok_iff.mpr ⟨items, list_strings items, rfl⟩
  | text value => rfl

end Detail

namespace Recipe

def amounts (recipe : Recipe) : List Amount :=
  (recipe.inputs ++ recipe.outputs).filterMap Entry.amount? ++ recipe.baseHealth.toList

def draft (recipe : Recipe) : Draft where
  name := some recipe.name
  inputs := some recipe.inputs
  outputs := some recipe.outputs
  mappers := recipe.mappers.map some
  category := recipe.category.map some
  construction := some recipe.construction
  sprites := recipe.sprites.map some
  baseHealth := recipe.baseHealth.map some
  details := some recipe.details

section Amounts

variable {recipe : Recipe} (back : ∀ a ∈ recipe.amounts, a.ReadsBack)

include back

theorem back_entry {entry : Entry} (inside : entry ∈ recipe.inputs ++ recipe.outputs) {a : Amount}
    (there : entry.amount? = some a) : a.ReadsBack := by
  apply back a
  rw [amounts, List.mem_append, List.mem_filterMap]
  exact .inl ⟨entry, inside, there⟩

theorem back_health {a : Amount} (there : recipe.baseHealth = some a) : a.ReadsBack := by
  apply back a
  simp [amounts, there]

theorem sound_toJson : Sound recipe.toJson := by
  have entries {entries : List Entry}
      (inside : ∀ entry ∈ entries, entry ∈ recipe.inputs ++ recipe.outputs) :
      Sound (.list (entries.map Entry.toJson)) := by
    apply Sound.list
    intro j member
    obtain ⟨entry, known, rfl⟩ := List.mem_map.mp member
    exact (Entry.decoded (fun a there => back_entry back (inside entry known) there) 0).1
  have mappers : ∀ j, recipe.mappers.map (table (table .string)) = some j → Sound j := by
    intro j there
    obtain ⟨mappers, -, rfl⟩ := Option.map_eq_some_iff.mp there
    exact Json.sound_table fun _ _ => Json.sound_table fun _ _ => .string _
  have category : ∀ j, recipe.category.map Json.string = some j → Sound j := by
    intro j there
    obtain ⟨category, -, rfl⟩ := Option.map_eq_some_iff.mp there
    exact .string category
  have sprites : ∀ j, recipe.sprites.map (table strings) = some j → Sound j := by
    intro j there
    obtain ⟨sprites, -, rfl⟩ := Option.map_eq_some_iff.mp there
    exact Json.sound_table fun _ _ => Json.sound_strings _
  have health : ∀ j, recipe.baseHealth.map Json.amount = some j → Sound j := by
    intro j there
    obtain ⟨a, known, rfl⟩ := Option.map_eq_some_iff.mp there
    exact (back_health back known).sound
  apply Sound.record
  simp only [List.forall_mem_append, List.forall_mem_cons, Json.forall_mem_member?]
  refine ⟨⟨⟨⟨⟨⟨⟨.string _, entries ?_, entries ?_, by simp⟩, mappers⟩, category⟩, .bool _, by simp⟩,
    sprites⟩, health⟩, Json.sound_table fun entry _ => entry.2.sound_toJson, by simp⟩
  · exact fun entry inside => List.mem_append_left _ inside
  · exact fun entry inside => List.mem_append_right _ inside

theorem decoded (room : Nat) : decoder (room + 5) recipe.toJson = .ok recipe := by
  have entries {entries : List Entry}
      (inside : ∀ entry ∈ entries, entry ∈ recipe.inputs ++ recipe.outputs) :
      list (Entry.decoder (room + 3)) (.list (entries.map Entry.toJson)) = .ok entries := by
    apply list_map
    intro entry known
    exact (Entry.decoded (fun a there => back_entry back (inside entry known) there) room).2
  have name := leads_one (Draft.step (room + 5)) "name" (fun found => { name := found })
    (fun _ => rfl) (string_string recipe.name)
  have inputs := leads_one (Draft.step (room + 5)) "inputs"
    (fun found => { name := recipe.draft.name, inputs := found }) (fun _ => rfl)
    (entries fun entry inside => List.mem_append_left _ inside)
  have outputs := leads_one (Draft.step (room + 5)) "outputs"
    (fun found => { name := recipe.draft.name, inputs := recipe.draft.inputs, outputs := found })
    (fun _ => rfl) (entries fun entry inside => List.mem_append_right _ inside)
  have mappers := leads_member? (Draft.step (room + 5)) "itemMappers"
    (fun found => { recipe.draft with
      mappers := found, category := none, construction := none, sprites := none, baseHealth := none
      details := none })
    (fun _ => rfl) (mapM_optional (table (table .string)) recipe.mappers fun mappers _ =>
      congrArg (some <$> ·) (dict_table fun _ _ => dict_table fun _ _ => rfl))
  have category := leads_member? (Draft.step (room + 5)) "category"
    (fun found => { recipe.draft with
      category := found, construction := none, sprites := none, baseHealth := none
      details := none })
    (fun _ => rfl) (mapM_string recipe.category)
  have construction := leads_one (Draft.step (room + 5)) "construction"
    (fun found => { recipe.draft with
      construction := found, sprites := none, baseHealth := none, details := none })
    (fun _ => rfl) (bool_bool recipe.construction)
  have sprites := leads_member? (Draft.step (room + 5)) "spriteOutputs"
    (fun found => { recipe.draft with sprites := found, baseHealth := none, details := none })
    (fun _ => rfl) (mapM_optional (table strings) recipe.sprites fun sprites _ =>
      congrArg (some <$> ·) (dict_table fun _ _ => list_strings _))
  have baseHealth := leads_member? (Draft.step (room + 5)) "skillBaseHealth"
    (fun found => { recipe.draft with baseHealth := found, details := none }) (fun _ => rfl)
    (mapM_optional .amount recipe.baseHealth fun a there => by
      rw [(back_health back there).toJson]
      rfl)
  have details := leads_one (Draft.step (room + 5)) "extra"
    (fun found => { recipe.draft with details := found }) (fun _ => rfl)
    (@dict_table _ _ _ recipe.details fun entry _ => entry.2.decoded (room + 2))
  have leads := ((((((((name.append inputs).append outputs).append mappers).append category).append
    construction).append sprites).append baseHealth).append details)
  refine bind_eq_ok_iff.mpr ⟨recipe.draft, leads.fields _ _, ?_⟩
  simp [draft, required, bind, Except.bind, pure, Except.pure, getD_optional]

end Amounts

end Recipe

namespace Document

def amounts (document : Document) : List Amount :=
  document.flatMap Recipe.amounts

/-- A document is read back from its text in either layout, if each of its amounts is. -/
theorem ofJsonText_toJson {document : Document} (back : ∀ a ∈ document.amounts, a.ReadsBack) :
    ofJsonText document.toJson.compact.toList = .ok document ∧
      ofJsonText document.toJson.pretty.toList = .ok document := by
  have each {recipe : Recipe} (inside : recipe ∈ document) : ∀ a ∈ recipe.amounts, a.ReadsBack :=
    fun a within => back a (List.mem_flatMap.mpr ⟨recipe, inside, within⟩)
  have sound : Sound document.toJson := by
    apply Sound.list
    intro j member
    obtain ⟨recipe, inside, rfl⟩ := List.mem_map.mp member
    exact Recipe.sound_toJson (each inside)
  have decoded : Decoder.list (Recipe.decoder (depthLimit - 1)) document.toJson = .ok document :=
    list_map fun recipe inside => Recipe.decoded (each inside) 121
  have run (depth : Option Nat) :
      ofJsonText (String.ofList (document.toJson.render depth)).toList = .ok document := by
    rw [String.toList_ofList, ofJsonText, Decoder.run, Json.read_render sound depth]
    exact bind_eq_ok_iff.mpr ⟨document, decoded, rfl⟩
  exact ⟨run none, run (some 0)⟩

/-- A document with every kind of entry, and with texts that have to be escaped. -/
theorem ofJsonText_toJson_kinds :
    let half := Amount.ofDecimal false ⟨5, -1⟩
    let huge := Amount.ofDecimal true ⟨3, 300⟩
    let document : Document := [
      { name := "a \"b\"\n"
        inputs := [
          .item { index := 7, ids := [], mode := some "keep", flags := NameSet.ofList ["Prop1"]
                  fluid := some ⟨["Water"], half⟩ },
          .fluid ⟨[], huge⟩, .energy ⟨half, "Heat", none⟩, .skin {}]
        mappers := some (Dict.ofList [("m", ∅)])
        construction := true
        baseHealth := some half
        details := Dict.ofList [("k", .list []), ("t", .text "")] },
      { name := "" }]
    (∀ a ∈ document.amounts, a.ReadsBack) ∧
      ofJsonText document.toJson.compact.toList = .ok document ∧
      ofJsonText document.toJson.pretty.toList = .ok document := by
  intro half huge document
  have back : ∀ a ∈ document.amounts, a.ReadsBack := by decide +kernel
  exact ⟨back, ofJsonText_toJson back⟩

end Document

end CraftScript
