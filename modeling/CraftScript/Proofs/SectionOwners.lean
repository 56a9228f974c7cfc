import CraftScript.Section

/-! Sections by ownership. An item line owns the fluid lines right behind it; what a section holds is
said from that alone, without carrying an item along. -/
namespace CraftScript

def Fluid.owned : List EntryLine → List (Flow × Fluid)
  | .fluid flow fluid :: lines => (flow, fluid) :: owned lines
  | _ => []

def Fluid.drawn (fluids : List (Flow × Fluid)) : List Fluid :=
  fluids.filterMap fun (flow, fluid) => if flow = .consumed then some fluid else none

theorem Fluid.drawn_concat_consumed (fluids : List (Flow × Fluid)) (fluid : Fluid) :
    drawn (fluids ++ [(.consumed, fluid)]) = drawn fluids ++ [fluid] := by
  simp [drawn]

theorem Fluid.drawn_concat_produced (fluids : List (Flow × Fluid)) (fluid : Fluid) :
    drawn (fluids ++ [(.produced, fluid)]) = drawn fluids := by
  simp [drawn]

namespace Item

def behind (settings : Settings) (item : Item) (fluids : List (Flow × Fluid)) : Item :=
  { item with
    ids := if Fluid.drawn fluids ≠ [] ∧ item.ids = [settings.wildcard]
      then [settings.wildcardFluidLabel] else item.ids
    fluid := (Fluid.drawn fluids).getLast?.or item.fluid }

def filled (settings : Settings) (item : Item) :
    (earlier : List (Flow × Fluid)) → List (Flow × Fluid) → List Item
  | _, [] => []
  | earlier, (.consumed, fluid) :: later => filled settings item (earlier ++ [(.consumed, fluid)]) later
  | earlier, (.produced, fluid) :: later =>
    { item.behind settings earlier with fluid := some fluid } ::
      filled settings item (earlier ++ [(.produced, fluid)]) later

theorem behind_nil (settings : Settings) (item : Item) : item.behind settings [] = item := by
  simp [behind, Fluid.drawn]

theorem behind_produced (settings : Settings) (item : Item) (earlier : List (Flow × Fluid))
    (fluid : Fluid) :
    item.behind settings (earlier ++ [(.produced, fluid)]) = item.behind settings earlier := by
  unfold behind
  rw [Fluid.drawn_concat_produced]

theorem behind_consumed (settings : Settings) (item : Item) (earlier : List (Flow × Fluid))
    (fluid : Fluid) :
    item.behind settings (earlier ++ [(.consumed, fluid)]) =
      (item.behind settings earlier).drawing settings fluid := by
  unfold behind drawing
  rw [Fluid.drawn_concat_consumed]
  by_cases wild : item.ids = [settings.wildcard]
  · by_cases before : Fluid.drawn earlier = []
    · simp [wild, before]
    · simp [wild, before]
  · simp [wild]

end Item

namespace Section

open Fluid (owned)

/-- One entry for each item and energy line, and one for each fluid line that no item owns;
`behindItem` says whether an item owns the fluid lines at the front. -/
def entriesOf (settings : Settings) : (behindItem : Bool) → List EntryLine → List Entry
  | _, [] => []
  | _, .item item :: lines =>
    .item (item.behind settings (owned lines)) :: entriesOf settings true lines
  | _, .energy energy :: lines => .energy energy :: entriesOf settings false lines
  | true, .fluid _ _ :: lines => entriesOf settings true lines
  | false, .fluid _ fluid :: lines => .fluid fluid :: entriesOf settings false lines

def carriedOf (settings : Settings) : List EntryLine → List Entry
  | [] => []
  | .item item :: lines =>
    (item.filled settings [] (owned lines)).map .item ++ carriedOf settings lines
  | .fluid _ _ :: lines | .energy _ :: lines => carriedOf settings lines

/-- Carrying the item along gives what ownership says, from no item on and from an item some of
whose fluid lines have passed. -/
theorem ofLines_owned (settings : Settings) (lines : List EntryLine) :
    ofLines settings none lines =
      ⟨entriesOf settings false lines, carriedOf settings lines⟩ ∧
    ∀ item earlier, ofLines settings (some (Item.behind settings item earlier)) lines =
      ⟨.item (item.behind settings (earlier ++ owned lines)) :: entriesOf settings true lines,
        (item.filled settings earlier (owned lines)).map .item ++ carriedOf settings lines⟩ := by
  induction lines with
  | nil => simp [ofLines, entriesOf, carriedOf, owned, Item.filled]
  | cons line lines ih =>
    obtain ⟨idle, carrying⟩ := ih
    cases line with
    | item next =>
      have fresh := carrying next []
      rw [Item.behind_nil, List.nil_append] at fresh
      simp [ofLines, fresh, entriesOf, carriedOf, owned, Item.filled]
    | energy supplied => simp [ofLines, idle, entriesOf, carriedOf, owned, Item.filled]
    | fluid flow held =>
      refine ⟨by simp [ofLines, idle, entriesOf, carriedOf], fun item earlier => ?_⟩
      cases flow with
      | consumed =>
        have later := carrying item (earlier ++ [(.consumed, held)])
        rw [Item.behind_consumed] at later
        simp [ofLines, later, entriesOf, carriedOf, owned, Item.filled]
      | produced =>
        have later := carrying item (earlier ++ [(.produced, held)])
        rw [Item.behind_produced] at later
        simp [ofLines, later, entriesOf, carriedOf, owned, Item.filled]

end Section

end CraftScript
