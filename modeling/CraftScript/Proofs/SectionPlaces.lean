import CraftScript.Proofs.SectionOwners
import Mathlib.Data.List.Induction
import Mathlib.Data.Option.Basic

/-! Sections place by place. What each line comes to is said from the lines before and behind it: an
item line owns the lines behind it up to the next item or energy line. A section read with a place
that remembers its last item comes to the same, and that place always holds an item. -/
namespace CraftScript.Section

def parts : Option EntryLine → Bool
  | some (.item _) => true
  | some (.energy _) => true
  | some (.fluid _ _) => false
  | none => false

def owned (after : List (Option EntryLine)) : List (Option EntryLine) :=
  after.takeWhile fun line => !parts line

def owner? (before : List (Option EntryLine)) : Option (Item × List (Option EntryLine)) :=
  match before.reverse.dropWhile fun line => !parts line with
  | some (.item item) :: _ => some (item, (before.reverse.takeWhile fun line => !parts line).reverse)
  | _ => none

def fluidsIn (lines : List (Option EntryLine)) : List (Flow × Fluid) :=
  lines.filterMap fun
    | some (.fluid flow fluid) => some (flow, fluid)
    | _ => none

def entryAt (settings : Settings) (lines : List (Option EntryLine)) (place : Nat) : Option Entry :=
  match lines[place]? with
  | some (some (.item item)) =>
    some (.item (item.behind settings (fluidsIn (owned (lines.drop (place + 1))))))
  | some (some (.energy energy)) => some (.energy energy)
  | some (some (.fluid _ fluid)) =>
    if (owner? (lines.take place)).isSome then none else some (.fluid fluid)
  | _ => none

def carriedAt (settings : Settings) (lines : List (Option EntryLine)) (place : Nat) :
    Option Entry :=
  match lines[place]?, owner? (lines.take place) with
  | some (some (.fluid .produced fluid)), some (item, between) =>
    some (.item { item.behind settings (fluidsIn between) with fluid := some fluid })
  | _, _ => none

theorem owner?_nil : owner? [] = none := rfl

theorem owner?_item (before : List (Option EntryLine)) (item : Item) :
    owner? (before ++ [some (.item item)]) = some (item, []) := by
  simp [owner?, parts]

theorem owner?_energy (before : List (Option EntryLine)) (energy : Energy) :
    owner? (before ++ [some (.energy energy)]) = none := by
  simp [owner?, parts]

theorem owner?_concat (before : List (Option EntryLine)) {line : Option EntryLine}
    (within : parts line = false) :
    owner? (before ++ [line]) =
      (owner? before).map fun (item, between) => (item, between ++ [line]) := by
  simp only [owner?, List.reverse_append, List.reverse_singleton, List.singleton_append]
  rw [List.dropWhile_cons_of_pos (by simp [within]), List.takeWhile_cons_of_pos (by simp [within])]
  split <;> simp

theorem owner?_eq_some {before between : List (Option EntryLine)} {item : Item}
    (own : owner? before = some (item, between)) :
    ∃ front, before = front ++ some (.item item) :: between ∧ ∀ line ∈ between, parts line = false := by
  induction before using List.reverseRecOn generalizing between with
  | nil => simp [owner?_nil] at own
  | append_singleton before line ih =>
    cases parting : parts line with
    | false =>
      rw [owner?_concat before parting] at own
      obtain ⟨⟨first, earlier⟩, found, same⟩ := Option.map_eq_some_iff.mp own
      obtain ⟨rfl, rfl⟩ := Prod.mk.inj same
      obtain ⟨front, rfl, within⟩ := ih found
      refine ⟨front, by simp, fun other inside => ?_⟩
      rcases List.mem_append.mp inside with early | last
      · exact within other early
      · rw [List.mem_singleton.mp last]
        exact parting
    | true =>
      match line with
      | some (.item next) =>
        rw [owner?_item] at own
        obtain ⟨rfl, rfl⟩ := Prod.mk.inj (Option.some.inj own)
        exact ⟨before, rfl, by simp⟩
      | some (.energy energy) =>
        rw [owner?_energy] at own
        contradiction
      | some (.fluid _ _) | none => contradiction

theorem fluidsIn_append (front back : List (Option EntryLine)) :
    fluidsIn (front ++ back) = fluidsIn front ++ fluidsIn back :=
  List.filterMap_append

def currentItem (settings : Settings) (before : List (Option EntryLine)) : Option Item :=
  (owner? before).map fun (item, between) => item.behind settings (fluidsIn between)

def pending (settings : Settings) (before after : List (Option EntryLine)) : List Entry :=
  (owner? before).toList.map fun (item, between) =>
    .item (item.behind settings (fluidsIn (between ++ owned after)))

section Steps

variable (settings : Settings) (before after : List (Option EntryLine))

theorem currentItem_item (item : Item) :
    currentItem settings (before ++ [some (.item item)]) = some item := by
  simp [currentItem, owner?_item, fluidsIn, Item.behind_nil]

theorem currentItem_energy (energy : Energy) :
    currentItem settings (before ++ [some (.energy energy)]) = none := by
  simp [currentItem, owner?_energy]

theorem currentItem_none : currentItem settings (before ++ [none]) = currentItem settings before := by
  rw [currentItem, currentItem, owner?_concat before rfl]
  cases owner? before <;> simp [fluidsIn]

theorem currentItem_consumed (fluid : Fluid) :
    currentItem settings (before ++ [some (.fluid .consumed fluid)]) =
      (currentItem settings before).map fun item => item.drawing settings fluid := by
  rw [currentItem, currentItem, owner?_concat before rfl]
  cases owner? before <;> simp [fluidsIn, Item.behind_consumed]

theorem currentItem_produced (fluid : Fluid) :
    currentItem settings (before ++ [some (.fluid .produced fluid)]) =
      currentItem settings before := by
  rw [currentItem, currentItem, owner?_concat before rfl]
  cases owner? before <;> simp [fluidsIn, Item.behind_produced]

theorem pending_nil :
    pending settings before [] = (currentItem settings before).toList.map .item := by
  cases own : owner? before <;> simp [pending, currentItem, own, owned]

theorem pending_item (item : Item) :
    pending settings (before ++ [some (.item item)]) after =
      [.item (item.behind settings (fluidsIn (owned after)))] := by
  simp [pending, owner?_item]

theorem pending_energy (energy : Energy) :
    pending settings (before ++ [some (.energy energy)]) after = [] := by
  simp [pending, owner?_energy]

theorem pending_concat {line : Option EntryLine} (within : parts line = false) :
    pending settings (before ++ [line]) after = pending settings before (line :: after) := by
  rw [pending, pending, owner?_concat before within]
  cases owner? before <;> simp [owned, within]

theorem pending_idle {before : List (Option EntryLine)} (idle : currentItem settings before = none) :
    pending settings before after = [] := by
  rw [pending, Option.map_eq_none_iff.mp idle]
  rfl

theorem pending_parting {line : Option EntryLine} (parting : parts line) :
    pending settings before (line :: after) = (currentItem settings before).toList.map .item := by
  cases own : owner? before <;> simp [pending, currentItem, own, owned, parting]

theorem entryAt_append (line : Option EntryLine) :
    entryAt settings (before ++ line :: after) before.length =
      match line with
      | some (.item item) => some (.item (item.behind settings (fluidsIn (owned after))))
      | some (.energy energy) => some (.energy energy)
      | some (.fluid _ fluid) =>
        if (currentItem settings before).isSome then none else some (.fluid fluid)
      | none => none := by
  have here : (before ++ line :: after)[before.length]? = some line := by simp
  have front : (before ++ line :: after).take before.length = before := by simp
  have back : (before ++ line :: after).drop (before.length + 1) = after := by simp
  rw [entryAt, here, front, back, currentItem, Option.isSome_map]
  cases line with
  | none => rfl
  | some line => cases line <;> rfl

theorem carriedAt_append (line : Option EntryLine) :
    carriedAt settings (before ++ line :: after) before.length =
      match line with
      | some (.fluid .produced fluid) =>
        (currentItem settings before).map fun item => .item { item with fluid := some fluid }
      | _ => none := by
  have here : (before ++ line :: after)[before.length]? = some line := by simp
  have front : (before ++ line :: after).take before.length = before := by simp
  rw [carriedAt, here, front, currentItem]
  rcases line with _ | (item | ⟨_ | _, fluid⟩ | energy) <;> cases owner? before <;> rfl

end Steps

/-- What the lines behind `before` come to, from the item that is carried along there. -/
theorem ofLines_places (settings : Settings) (before after : List (Option EntryLine)) :
    ofLines settings (currentItem settings before) (after.filterMap id) =
      ⟨pending settings before after ++
        (List.range' before.length after.length).filterMap (entryAt settings (before ++ after)),
        (List.range' before.length after.length).filterMap
          (carriedAt settings (before ++ after))⟩ := by
  induction after generalizing before with
  | nil => simp [pending_nil, ofLines]
  | cons line after ih =>
    have rest := ih (before ++ [line])
    have entry := entryAt_append settings before after line
    have carried := carriedAt_append settings before after line
    have whole : before ++ [line] ++ after = before ++ line :: after := by simp
    rw [whole, List.length_append, List.length_singleton] at rest
    rw [List.length_cons, List.range'_succ]
    cases line with
    | none =>
      rw [currentItem_none, pending_concat settings before after rfl] at rest
      rw [List.filterMap_cons_none rfl, rest]
      simp [entry, carried]
    | some line =>
      have known : (some line :: after).filterMap id = line :: after.filterMap id := rfl
      rw [known]
      cases line with
      | item item =>
        rw [currentItem_item, pending_item] at rest
        rw [pending_parting settings before after rfl, ofLines, rest]
        simp [entry, carried]
      | energy energy =>
        rw [currentItem_energy, pending_energy] at rest
        rw [pending_parting settings before after rfl, ofLines, rest]
        simp [entry, carried]
      | fluid flow fluid =>
        rw [pending_concat settings before after rfl] at rest
        cases own : currentItem settings before with
        | none =>
          have idle : currentItem settings (before ++ [some (.fluid flow fluid)]) = none := by
            cases flow with
            | consumed => rw [currentItem_consumed, own, Option.map_none]
            | produced => rw [currentItem_produced, own]
          rw [idle, pending_idle settings _ own] at rest
          rw [pending_idle settings _ own, ofLines, rest]
          cases flow <;> simp [own, entry, carried]
        | some item =>
          cases flow with
          | consumed =>
            rw [currentItem_consumed, own, Option.map_some] at rest
            rw [ofLines, rest]
            simp [own, entry, carried]
          | produced =>
            rw [currentItem_produced, own] at rest
            rw [ofLines, rest]
            simp [own, entry, carried]

/-- A section as its lines are added one by one. `lastItem` is the place among the entries of the item
that fluid lines belong to. -/
structure Draft where
  entries : List Entry := []
  carriedOver : List Entry := []
  lastItem : Option Nat := none
deriving DecidableEq, Repr

namespace Draft

def add (settings : Settings) (draft : Draft) : EntryLine → Draft
  | .item item =>
    { draft with
      entries := draft.entries ++ [.item item]
      lastItem := some draft.entries.length }
  | .energy energy => { draft with entries := draft.entries ++ [.energy energy], lastItem := none }
  | .fluid .consumed fluid =>
    match draft.lastItem with
    | none => { draft with entries := draft.entries ++ [.fluid fluid] }
    | some place =>
      match draft.entries[place]? with
      | some (.item item) =>
        { draft with entries := draft.entries.set place (.item (item.drawing settings fluid)) }
      -- A place without an item would lose the line.
      | _ => draft
  | .fluid .produced fluid =>
    match (draft.lastItem.bind (draft.entries[·]?)).bind Entry.item? with
    | some item =>
      { draft with
        carriedOver := draft.carriedOver ++ [.item { item with fluid := some fluid }] }
    | none => { draft with entries := draft.entries ++ [.fluid fluid] }

def ofLines (settings : Settings) (lines : List EntryLine) : Draft :=
  lines.foldl (add settings) {}

def Points (draft : Draft) : Prop :=
  ∀ place, draft.lastItem = some place → ∃ item, draft.entries[place]? = some (.item item)

structure Holds (draft : Draft) (front : List Entry) (current : Option Item) : Prop where
  entries : draft.entries = front ++ current.toList.map .item
  place : draft.lastItem = current.map fun _ => front.length

theorem Holds.points {draft : Draft} {front : List Entry} {current : Option Item}
    (holds : draft.Holds front current) : draft.Points := by
  intro place pointed
  rw [holds.place] at pointed
  obtain ⟨item, rfl, rfl⟩ := Option.map_eq_some_iff.mp pointed
  exact ⟨item, by simp [holds.entries]⟩

/-- A line added to a draft does what a line put in front of the others does. -/
theorem holds_add (settings : Settings) {draft : Draft} {front : List Entry}
    {current : Option Item} (holds : draft.Holds front current) (line : EntryLine) :
    ∃ front' current', (draft.add settings line).Holds front' current' ∧
      ∀ lines, front ++ (Section.ofLines settings current (line :: lines)).entries =
          front' ++ (Section.ofLines settings current' lines).entries ∧
        draft.carriedOver ++ (Section.ofLines settings current (line :: lines)).carriedOver =
          (draft.add settings line).carriedOver ++
            (Section.ofLines settings current' lines).carriedOver := by
  obtain ⟨entries, place⟩ := holds
  match line, current with
  | .item item, current =>
    exact ⟨draft.entries, some item, ⟨by simp [add], by simp [add]⟩,
      fun lines => by simp [Section.ofLines, add, entries]⟩
  | .energy energy, current =>
    exact ⟨draft.entries ++ [.energy energy], none, ⟨by simp [add], by simp [add]⟩,
      fun lines => by simp [Section.ofLines, add, entries]⟩
  | .fluid flow fluid, none =>
    have added : draft.add settings (.fluid flow fluid) =
        { draft with entries := draft.entries ++ [.fluid fluid] } := by
      cases flow <;> simp [add, place]
    exact ⟨front ++ [.fluid fluid], none, ⟨by simp [added, entries], by simp [added, place]⟩,
      fun lines => by simp [Section.ofLines, added]⟩
  | .fluid .consumed fluid, some item =>
    have added : draft.add settings (.fluid .consumed fluid) =
        { draft with entries := front ++ [.item (item.drawing settings fluid)] } := by
      simp [add, place, entries]
    exact ⟨front, some (item.drawing settings fluid), ⟨by simp [added], by simp [added, place]⟩,
      fun lines => by simp [Section.ofLines, added]⟩
  | .fluid .produced fluid, some item =>
    have added : draft.add settings (.fluid .produced fluid) =
        { draft with
          carriedOver := draft.carriedOver ++ [.item { item with fluid := some fluid }] } := by
      simp [add, place, entries, Entry.item?]
    exact ⟨front, some item, ⟨by simp [added, entries], by simp [added, place]⟩,
      fun lines => by simp [Section.ofLines, added]⟩

theorem foldl_add (settings : Settings) {draft : Draft} {front : List Entry}
    {current : Option Item} (holds : draft.Holds front current) (lines : List EntryLine) :
    (lines.foldl (add settings) draft).Points ∧
      (lines.foldl (add settings) draft).entries =
        front ++ (Section.ofLines settings current lines).entries ∧
      (lines.foldl (add settings) draft).carriedOver =
        draft.carriedOver ++ (Section.ofLines settings current lines).carriedOver := by
  induction lines generalizing draft front current with
  | nil =>
    refine ⟨holds.points, ?_, ?_⟩
    · rw [List.foldl_nil, holds.entries, Section.ofLines]
    · rw [List.foldl_nil, Section.ofLines, List.append_nil]
  | cons line lines ih =>
    obtain ⟨front', current', holds', same⟩ := holds_add settings holds line
    obtain ⟨points, entries, carried⟩ := ih holds'
    rw [List.foldl_cons, (same lines).1, (same lines).2]
    exact ⟨points, entries, carried⟩

theorem ofLines_eq (settings : Settings) (lines : List EntryLine) :
    (ofLines settings lines).Points ∧
      (ofLines settings lines).entries = (Section.ofLines settings none lines).entries ∧
      (ofLines settings lines).carriedOver = (Section.ofLines settings none lines).carriedOver := by
  have idle : Holds {} [] none := ⟨rfl, rfl⟩
  exact foldl_add settings idle lines

end Draft

theorem fluid_read? {settings : Settings} {line : Text} {item : Item}
    (read : EntryLine.read? settings line = some (.item item)) : item.fluid = none := by
  unfold EntryLine.read? at read
  split at read
  · cases read
  · split at read
    · cases read
    · obtain ⟨found, written, same⟩ := Option.map_eq_some_iff.mp read
      obtain rfl := EntryLine.item.inj same
      simp only [EntryLine.item?, Option.bind_eq_bind, Option.bind_eq_some_iff, Option.pure_def,
        Option.some.injEq, Prod.exists] at written
      obtain ⟨_, -, _, -, digits, t, -, _, -, _, -, index, -, _, -, rfl⟩ := written
      rfl

theorem classify_eq (settings : Settings) (line : Text) :
    classify settings line = ⟨EntryLine.read? settings line,
      if (EntryLine.read? settings line).isNone then [.unrecognizedLine (String.ofList line)]
      else []⟩ := by
  unfold classify
  split
  next entry read => simp [read, pure]
  next unread =>
    rw [unread]
    rfl

theorem value_read (settings : Settings) (t : Text) :
    (read settings t).value =
      ofLines settings none (((contentLines t).map (EntryLine.read? settings)).filterMap id) := by
  rw [read, WithIssues.value_bind, WithIssues.value_mapM, WithIssues.value_pure]
  simp only [classify_eq]

theorem issues_read (settings : Settings) (t : Text) :
    (read settings t).issues =
      ((contentLines t).filter fun line => (EntryLine.read? settings line).isNone).map
        fun line => .unrecognizedLine (String.ofList line) := by
  rw [read, WithIssues.issues_bind, WithIssues.issues_mapM, WithIssues.issues_pure, List.append_nil]
  induction contentLines t with
  | nil => rfl
  | cons line lines ih =>
    rw [List.flatMap_cons, ih, classify_eq, List.filter_cons]
    split <;> rfl

/-- The fluid of a line comes to an entry of its own, or an item before it owns the line: what it
produces is set aside with that item, and what it consumes is among the fluids drawn from it. -/
def FluidCounts (settings : Settings) (lines : List (Option EntryLine)) (place : Nat) (flow : Flow)
    (fluid : Fluid) : Prop :=
  entryAt settings lines place = some (.fluid fluid) ∨
    ∃ owner < place, ∃ item, lines[owner]? = some (some (.item item)) ∧
      (flow = .produced ∧
          (∃ kept, carriedAt settings lines place = some (.item kept) ∧ kept.fluid = some fluid) ∨
        flow = .consumed ∧ fluid ∈ Fluid.drawn (fluidsIn (owned (lines.drop (owner + 1)))))

theorem fluidCounts (settings : Settings) {lines : List (Option EntryLine)} {place : Nat}
    {flow : Flow} {fluid : Fluid} (here : lines[place]? = some (some (.fluid flow fluid))) :
    FluidCounts settings lines place flow fluid := by
  cases own : owner? (lines.take place) with
  | none => exact .inl (by simp [entryAt, here, own])
  | some found =>
    obtain ⟨item, between⟩ := found
    obtain ⟨front, split, within⟩ := owner?_eq_some own
    obtain ⟨inside, same⟩ := List.getElem?_eq_some_iff.mp here
    have whole : lines = front ++ some (.item item) ::
        (between ++ some (.fluid flow fluid) :: lines.drop (place + 1)) := by
      have cut := List.take_append_drop place lines
      rw [split, List.drop_eq_getElem_cons inside, same] at cut
      simpa using cut.symm
    have size : place = front.length + (between.length + 1) := by
      have lengths := congrArg List.length split
      rw [List.length_take_of_le (Nat.le_of_lt inside)] at lengths
      simpa using lengths
    refine .inr ⟨front.length, by omega, item, by rw [whole]; simp, ?_⟩
    cases flow with
    | produced => exact .inl ⟨rfl, _, by rw [carriedAt, here, own], rfl⟩
    | consumed =>
      have behind : lines.drop (front.length + 1) =
          between ++ some (.fluid .consumed fluid) :: lines.drop (place + 1) := by
        conv_lhs => rw [whole]
        simp
      have all : ∀ line ∈ between, !parts line := by simpa using within
      rw [behind, owned, List.takeWhile_append_of_pos all, List.takeWhile_cons_of_pos rfl,
        fluidsIn_append]
      exact .inr ⟨rfl, by simp [Fluid.drawn, fluidsIn]⟩

/-- A section place by place: what its lines come to in their order, what they set aside, and which of
them are issues. The place of the last item holds an item behind each of the lines, so that no fluid
line is lost. -/
theorem read_places (settings : Settings) (t : Text) :
    let lines := (contentLines t).map (EntryLine.read? settings)
    let places := List.range lines.length
    (read settings t).value.entries = places.filterMap (entryAt settings lines) ∧
    (∀ item, some (.item item) ∈ lines → item.fluid = none) ∧
    (read settings t).value.carriedOver = places.filterMap (carriedAt settings lines) ∧
    (read settings t).issues =
      ((contentLines t).filter fun line => (EntryLine.read? settings line).isNone).map
        (fun line => .unrecognizedLine (String.ofList line)) ∧
    (∀ front, front <+: lines.filterMap id → (Draft.ofLines settings front).Points) ∧
    (Draft.ofLines settings (lines.filterMap id)).entries = (read settings t).value.entries ∧
    (Draft.ofLines settings (lines.filterMap id)).carriedOver =
      (read settings t).value.carriedOver ∧
    ∀ place flow fluid, lines[place]? = some (some (.fluid flow fluid)) →
      FluidCounts settings lines place flow fluid := by
  intro lines places
  have value : (read settings t).value =
      ⟨places.filterMap (entryAt settings lines), places.filterMap (carriedAt settings lines)⟩ := by
    have put := ofLines_places settings [] lines
    rw [value_read]
    change ofLines settings none (lines.filterMap id) = _
    simpa [currentItem, pending, owner?_nil, places, List.range_eq_range'] using put
  obtain ⟨-, entries, carried⟩ := Draft.ofLines_eq settings (lines.filterMap id)
  rw [← value_read] at entries carried
  refine ⟨by rw [value], fun item member => ?_, by rw [value], issues_read settings t,
    fun front _ => (Draft.ofLines_eq settings front).1, entries, carried,
    fun place flow fluid here => fluidCounts settings here⟩
  obtain ⟨line, -, read⟩ := List.mem_map.mp member
  exact fluid_read? read

end CraftScript.Section
