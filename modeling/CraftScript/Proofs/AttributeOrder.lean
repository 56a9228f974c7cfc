import CraftScript.Proofs.ItemParts

/-! Parts of an item line in any order. Names go into sets, a mapper or a mode stands alone, and ids
keep their order, so only the groups of ids have to stay in theirs. -/
namespace CraftScript.ItemLine

open EntryLine

theorem eq_of_perm {α : Type} {order list : List α} (perm : order.Perm list)
    (few : list.length ≤ 1) : order = list := by
  match list with
  | [] => exact perm.eq_nil
  | [a] => exact List.perm_singleton.mp perm
  | _ :: _ :: _ => simp at few

section Orders

variable {order parts : List Part}

theorem namesOf_perm (kinds : List Part.Kind) (perm : order.Perm parts) :
    (namesOf kinds order).Perm (namesOf kinds parts) :=
  (perm.filter _).flatMap_right Part.names

theorem ofList_namesOf_perm (kinds : List Part.Kind) (perm : order.Perm parts) :
    NameSet.ofList (namesOf kinds order) = NameSet.ofList (namesOf kinds parts) :=
  NameSet.ofList_congr fun _ => (namesOf_perm kinds perm).mem_iff

theorem filter_kind_perm {kind : Part.Kind} (perm : order.Perm parts)
    (few : parts.countP (·.kind = kind) ≤ 1) :
    order.filter (·.kind = kind) = parts.filter (·.kind = kind) := by
  apply eq_of_perm (perm.filter _)
  rwa [← List.countP_eq_length_filter]

theorem namesOf_single {kind : Part.Kind}
    (same : order.filter (·.kind = kind) = parts.filter (·.kind = kind)) :
    namesOf [kind] order = namesOf [kind] parts := by
  simpa [namesOf] using congrArg (List.flatMap Part.names) same

theorem Arranged.perm (arranged : Arranged parts) (perm : order.Perm parts) : Arranged order := by
  obtain ⟨once, apart⟩ := arranged
  refine ⟨fun kind member => ?_, ?_⟩
  · rw [perm.countP_eq]
    exact once kind member
  · simpa [perm.mem_iff] using apart

theorem namesOf_ids (arranged : Arranged parts) (perm : order.Perm parts)
    (groups : order.filter (·.kind = .group) = parts.filter (·.kind = .group)) :
    namesOf [.group, .free] order = namesOf [.group, .free] parts := by
  rcases arranged.2 with noFree | noGroup
  · have bracketed {list : List Part} (within : ∀ part ∈ list, part ∈ parts) :
        namesOf [.group, .free] list = namesOf [.group] list := by
      apply namesOf_congr
      intro part member
      simp [noFree part (within part member)]
    rw [bracketed fun _ => perm.mem_iff.mp, bracketed fun _ => id, namesOf_single groups]
  · have outside {list : List Part} (within : ∀ part ∈ list, part ∈ parts) :
        namesOf [.group, .free] list = namesOf [.free] list := by
      apply namesOf_congr
      intro part member
      simp [noGroup part (within part member)]
    have free := filter_kind_perm perm (arranged.1 .free (by simp))
    rw [outside fun _ => perm.mem_iff.mp, outside fun _ => id, namesOf_single free]

theorem itemOfParts_perm (settings : Settings) (index : UInt32) (arranged : Arranged parts)
    (perm : order.Perm parts)
    (groups : order.filter (·.kind = .group) = parts.filter (·.kind = .group)) :
    itemOfParts settings index order = itemOfParts settings index parts := by
  have once {kind : Part.Kind} (member : kind ∈ [Part.Kind.mapper, .mode, .count, .free]) :
      namesOf [kind] order = namesOf [kind] parts :=
    namesOf_single (filter_kind_perm perm (arranged.1 kind member))
  rw [itemOfParts, namesOf_ids arranged perm groups, once (by simp), once (by simp),
    ofList_namesOf_perm _ perm, ofList_namesOf_perm _ perm]
  rfl

end Orders

/-- The parts of an item line may stand in any order that keeps the groups of ids in theirs. -/
theorem item?_any_order (settings : Settings) (index : UInt32) {parts order : List Part}
    (arranged : Arranged parts) (perm : order.Perm parts)
    (groups : order.filter (·.kind = .group) = parts.filter (·.kind = .group)) :
    item? settings (lineText index order) = some (itemOfParts settings index parts) := by
  rw [item?_lineText settings index (arranged.perm perm),
    itemOfParts_perm settings index arranged perm groups]

/-- Labels in the tags look like other parts, and one of the ids is like the word for a count. -/
theorem item?_any_order_lookalikes :
    let ids : List Part := [
      .group [(⟨"Base.Axe".toList, by decide, by decide⟩, .semicolon),
        (⟨"itemcount".toList, by decide, by decide⟩, .comma)],
      .group [(⟨"*".toList, by decide, by decide⟩, .comma)]]
    let others : List Part := [
      .tags [(⟨"mode:x".toList, by decide, by decide⟩, .comma),
        (⟨"mapper:y".toList, by decide, by decide⟩, .semicolon)],
      .count, .mode ⟨"keep".toList, by decide, by decide⟩, .flags [], .tags [],
      .mapper ⟨"mode".toList, by decide, by decide⟩]
    Arranged (ids ++ others) ∧ (others ++ ids).Perm (ids ++ others) ∧
      (others ++ ids).filter (·.kind = .group) = (ids ++ others).filter (·.kind = .group) ∧
      lineText 3 (others ++ ids) =
        "item 3 tags[mode:x,mapper:y] itemcount mode:keep flags[] tags[] ".toList ++
          "mapper:mode [Base.Axe;itemcount] [*]".toList ∧
      item? {} (lineText 3 (others ++ ids)) = some (itemOfParts {} 3 (ids ++ others)) := by
  intro ids others
  have arranged : Arranged (ids ++ others) := by decide
  have perm : (others ++ ids).Perm (ids ++ others) := List.perm_append_comm
  have kept : (others ++ ids).filter (·.kind = .group) =
      (ids ++ others).filter (·.kind = .group) := rfl
  exact ⟨arranged, perm, kept, rfl, item?_any_order {} 3 arranged perm kept⟩

end CraftScript.ItemLine
