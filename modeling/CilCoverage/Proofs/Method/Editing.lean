import CilCoverage.Method.Insertion
import CilCoverage.Proofs.Method.Validity

/-!
# Edits of the execution order

All changes that are made to a method have one shape: the instruction of one handle is replaced and
others are put into fresh slots behind it (`Method.replaced`). Handles keep their instructions, bar
the one that is replaced (`get_replaced_of_ne`), and their order (`sublist_insertBehind`), so that
regions and branches still mean what they meant.

`Valid.replaced` and `Recodable.replaced` say what the new instructions have to satisfy for the
method to stay well-formed.
-/

set_option autoImplicit false

namespace CilCoverage

section Order

variable {position : Nat} {inserted order : List Handle}

/-- An insertion adds the inserted handles. -/
theorem perm_insertBehind (position : Nat) (inserted order : List Handle) :
    (insertBehind position inserted order).Perm (order ++ inserted) := by
  have hback : (order.take (position + 1) ++ (inserted ++ order.drop (position + 1))).Perm
      (order.take (position + 1) ++ (order.drop (position + 1) ++ inserted)) :=
    List.perm_append_comm.append_left _
  rw [← List.append_assoc, ← List.append_assoc, List.take_append_drop] at hback
  exact hback

/-- An insertion leaves the other handles in their order. -/
theorem sublist_insertBehind : order.Sublist (insertBehind position inserted order) := by
  have hback : (order.take (position + 1) ++ order.drop (position + 1)).Sublist
      (order.take (position + 1) ++ (inserted ++ order.drop (position + 1))) :=
    (List.sublist_append_right _ _).append_left _
  rw [List.take_append_drop, ← List.append_assoc] at hback
  exact hback

/-- The elements up to `position` stay, the inserted ones follow, the others come last. -/
theorem getElem?_insertBehind (hin : position < order.length) (k : Nat) :
    (insertBehind position inserted order)[k]?
      = if k ≤ position then order[k]?
        else if k ≤ position + inserted.length then inserted[k - (position + 1)]?
        else order[k - inserted.length]? := by
  have htake : (order.take (position + 1)).length = position + 1 := by
    rw [List.length_take]
    omega
  unfold insertBehind
  split
  · rename_i hle
    rw [List.append_assoc, List.getElem?_append_left (by omega), List.getElem?_take,
      if_pos (by omega)]
  · rename_i hgt
    split
    · rename_i hle
      rw [List.getElem?_append_left (by rw [List.length_append]; omega),
        List.getElem?_append_right (by omega), htake]
    · rename_i hgt'
      rw [List.getElem?_append_right (by rw [List.length_append]; omega), List.length_append,
        htake, List.getElem?_drop]
      congr 1
      omega

/-- An insertion makes the order longer by what is inserted. -/
theorem length_insertBehind :
    (insertBehind position inserted order).length = order.length + inserted.length := by
  rw [(perm_insertBehind position inserted order).length_eq, List.length_append]

end Order

namespace Method

/-- The method with another instruction in a slot and further ones in fresh slots behind it. -/
def replaced (method : Method) (target position : Nat) (first : Instruction)
    (rest : List Instruction) : Method :=
  { method with slots := method.slots.setIfInBounds target first }.splice position rest

section Replacing

variable {method : Method} {target position : Nat} {first : Instruction} {rest : List Instruction}

/-- The fresh handles are inserted behind the position. -/
theorem order_replaced :
    (method.replaced target position first rest).order
      = insertBehind position (method.freshHandles rest.length) method.order := by
  simp [replaced, splice, freshHandles]

/-- The slot of the target is overwritten and fresh slots are pushed. -/
theorem slots_replaced :
    (method.replaced target position first rest).slots
      = method.slots.setIfInBounds target first ++ rest.toArray := by
  apply Array.ext'
  simp [replaced, splice]

/-- There are as many slots more as there are further instructions. -/
theorem size_replaced :
    (method.replaced target position first rest).slots.size = method.slots.size + rest.length := by
  simp [slots_replaced]

/-- As many handles are fresh as asked for. -/
theorem length_freshHandles (method : Method) (count : Nat) :
    (method.freshHandles count).length = count := by
  simp [freshHandles]

/-- The target holds the first instruction. -/
theorem get_replaced_self (hlt : target < method.slots.size) :
    (method.replaced target position first rest).get target = first := by
  rw [get, get?, slots_replaced, Array.getElem?_append_left (by simpa using hlt),
    Array.getElem?_setIfInBounds_self_of_lt hlt, Option.getD_some]

/-- Other slots keep their instructions. -/
theorem get_replaced_of_ne {handle : Nat} (hlt : handle < method.slots.size)
    (hne : target ≠ handle) :
    (method.replaced target position first rest).get handle = method.get handle := by
  rw [get, get?, slots_replaced, Array.getElem?_append_left (by simpa using hlt),
    Array.getElem?_setIfInBounds_ne hne, get, get?]

/-- The fresh slots hold the further instructions. -/
theorem get_replaced_fresh {handle : Nat} (hle : method.slots.size ≤ handle) :
    (method.replaced target position first rest).get handle
      = (rest[handle - method.slots.size]?).getD (.label (-1)) := by
  rw [get, get?, slots_replaced, Array.getElem?_append_right (by simpa using hle),
    Array.size_setIfInBounds, List.getElem?_toArray]

/-- Every instruction of the edited method is one of the old ones or one of the new ones. -/
theorem get_replaced_cases (position : Nat) (first : Instruction) (rest : List Instruction)
    (hlt : target < method.slots.size) (handle : Nat) :
    (handle = target ∧ (method.replaced target position first rest).get handle = first)
      ∨ (handle ≠ target ∧ handle < method.slots.size
        ∧ (method.replaced target position first rest).get handle = method.get handle)
      ∨ (method.slots.size ≤ handle ∧
        (method.replaced target position first rest).get handle
          = (rest[handle - method.slots.size]?).getD (.label (-1))) := by
  by_cases hself : handle = target
  · subst hself
    exact Or.inl ⟨rfl, get_replaced_self hlt⟩
  · by_cases hin : handle < method.slots.size
    · exact Or.inr (Or.inl ⟨hself, hin, get_replaced_of_ne hin (Ne.symm hself)⟩)
    · have hle := Nat.le_of_not_lt hin
      exact Or.inr (Or.inr ⟨hle, get_replaced_fresh hle⟩)

/-- What holds of the old instructions, of the new ones and of the label holds of all. -/
theorem forall_get_replaced {P : Instruction → Prop} (hlt : target < method.slots.size)
    (hold : ∀ handle < method.slots.size, P (method.get handle))
    (hnew : ∀ instruction ∈ first :: rest, P instruction) (hlabel : P (.label (-1)))
    (handle : Nat) : P ((method.replaced target position first rest).get handle) := by
  rcases get_replaced_cases position first rest hlt handle
    with ⟨-, hget⟩ | ⟨-, hin, hget⟩ | ⟨-, hget⟩
  · rw [hget]
    exact hnew first List.mem_cons_self
  · rw [hget]
    exact hold handle hin
  · rw [hget]
    cases hk : rest[handle - method.slots.size]? with
    | none => exact hlabel
    | some instruction =>
      exact hnew instruction (List.mem_cons_of_mem _ (List.mem_of_getElem? hk))

/-- The slots are still listed once each. -/
theorem Ordered.replaced (ho : method.Ordered) :
    (method.replaced target position first rest).Ordered := by
  have hperm := perm_insertBehind position (method.freshHandles rest.length) method.order
  have hfresh (handle : Nat) : handle ∈ method.freshHandles rest.length
      ↔ method.slots.size ≤ handle ∧ handle < method.slots.size + rest.length :=
    List.mem_range'_1
  constructor
  · rw [order_replaced, hperm.nodup_iff, List.nodup_append]
    refine ⟨ho.nodup, List.nodup_range', ?_⟩
    rintro handle hold fresh hnew rfl
    have hlt := (ho.mem_iff handle).mp hold
    have hge := ((hfresh handle).mp hnew).1
    exact absurd hlt (Nat.not_lt.mpr hge)
  · intro handle
    rw [order_replaced, hperm.mem_iff, List.mem_append, ho.mem_iff, hfresh, size_replaced]
    constructor
    · rintro (hold | hnew)
      · exact Nat.lt_of_lt_of_le hold (Nat.le_add_right _ _)
      · exact hnew.2
    · intro hlt
      rcases Nat.lt_or_ge handle method.slots.size with hold | hnew
      · exact Or.inl hold
      · exact Or.inr ⟨hnew, hlt⟩

/-- Handles that were there keep their order. -/
theorem idxOf_replaced_le_iff (ho : method.Ordered) {a b : Handle} (ha : a ∈ method.order)
    (hb : b ∈ method.order) :
    (method.replaced target position first rest).order.idxOf a
        ≤ (method.replaced target position first rest).order.idxOf b
      ↔ method.order.idxOf a ≤ method.order.idxOf b := by
  have hsub : method.order.Sublist (method.replaced target position first rest).order := by
    rw [order_replaced]
    exact sublist_insertBehind
  exact idxOf_le_idxOf_iff hsub ho.replaced.nodup ha hb

/-- The handles of the edited place: the target, then the fresh ones. -/
def chained (method : Method) (target index : Nat) : Handle :=
  if index = 0 then target else method.slots.size + (index - 1)

/-- The handles of the edited place hold the new instructions in their order. -/
theorem get_replaced_chained (hlt : target < method.slots.size) (index : Nat) :
    (method.replaced target position first rest).get (method.chained target index)
      = ((first :: rest)[index]?).getD (.label (-1)) := by
  cases index with
  | zero => exact get_replaced_self hlt
  | succ index =>
    show (method.replaced target position first rest).get (method.slots.size + index) = _
    rw [get_replaced_fresh (Nat.le_add_right _ _), Nat.add_sub_cancel_left,
      List.getElem?_cons_succ]

/-- The handles of the edited place are listed from its position on. -/
theorem getElem?_order_chained (hat : method.order[position]? = some target) {index : Nat}
    (hindex : index ≤ rest.length) :
    (method.replaced target position first rest).order[position + index]?
      = some (method.chained target index) := by
  have hin : position < method.order.length := (List.getElem?_eq_some_iff.mp hat).1
  have hcount := length_freshHandles method rest.length
  rw [order_replaced, getElem?_insertBehind hin, hcount]
  cases index with
  | zero => rwa [Nat.add_zero, if_pos (Nat.le_refl _)]
  | succ index =>
    have hfresh : index < (method.freshHandles rest.length).length := by omega
    rw [if_neg (by omega), if_pos (by omega), show position + (index + 1) - (position + 1) = index
      by omega, List.getElem?_eq_getElem hfresh]
    simp [freshHandles, chained]

/-- The fresh instructions follow the target one after the other. -/
theorem next?_replaced_chained (ho : method.Ordered) (hat : method.order[position]? = some target)
    {index : Nat} (hindex : index < rest.length) :
    (method.replaced target position first rest).next? (method.chained target index)
      = some (method.chained target (index + 1)) := by
  rw [ho.replaced.next?_of_getElem? (getElem?_order_chained hat (Nat.le_of_lt hindex))]
  exact getElem?_order_chained hat hindex

/-- The last of them leads to what followed the target. -/
theorem next?_replaced_last (ho : method.Ordered) (hat : method.order[position]? = some target) :
    (method.replaced target position first rest).next? (method.chained target rest.length)
      = method.next? target := by
  have hin : position < method.order.length := (List.getElem?_eq_some_iff.mp hat).1
  have hcount := length_freshHandles method rest.length
  rw [ho.replaced.next?_of_getElem? (getElem?_order_chained hat (Nat.le_refl _)),
    ho.next?_of_getElem? hat, order_replaced, getElem?_insertBehind hin, hcount,
    if_neg (by omega), if_neg (by omega)]
  congr 1
  omega

/-- What follows on other instructions stays the same. -/
theorem next?_replaced_of_ne (ho : method.Ordered) (hat : method.order[position]? = some target)
    {handle : Handle} (hmem : handle ∈ method.order) (hne : target ≠ handle) :
    (method.replaced target position first rest).next? handle = method.next? handle := by
  have hin : position < method.order.length := (List.getElem?_eq_some_iff.mp hat).1
  have hcount := length_freshHandles method rest.length
  obtain ⟨k, hk⟩ := List.getElem?_of_mem hmem
  have hother : k ≠ position := by
    rintro rfl
    exact hne (Option.some.inj (hat.symm.trans hk))
  rw [ho.next?_of_getElem? hk]
  rcases Nat.lt_or_ge k position with hbefore | hbehind
  · have hk' : (method.replaced target position first rest).order[k]? = some handle := by
      rw [order_replaced, getElem?_insertBehind hin, if_pos (by omega)]
      exact hk
    rw [ho.replaced.next?_of_getElem? hk', order_replaced, getElem?_insertBehind hin,
      if_pos (by omega)]
  · have hk' : (method.replaced target position first rest).order[k + rest.length]?
        = some handle := by
      rw [order_replaced, getElem?_insertBehind hin, hcount, if_neg (by omega), if_neg (by omega),
        Nat.add_sub_cancel]
      exact hk
    rw [ho.replaced.next?_of_getElem? hk', order_replaced, getElem?_insertBehind hin, hcount,
      if_neg (by omega), if_neg (by omega)]
    congr 1
    omega

/-- The first instruction stays the first. -/
theorem head?_order_replaced (hat : method.order[position]? = some target) :
    (method.replaced target position first rest).order.head? = method.order.head? := by
  have hin : position < method.order.length := (List.getElem?_eq_some_iff.mp hat).1
  rw [List.head?_eq_getElem?, List.head?_eq_getElem?, order_replaced, getElem?_insertBehind hin,
    if_pos (Nat.zero_le _)]

/-- The method is longer by the further instructions. -/
theorem length_replaced :
    (method.replaced target position first rest).length = method.order.length + rest.length := by
  rw [length, order_replaced, length_insertBehind, length_freshHandles]

/-- The label stays at the end. -/
theorem Valid.ending_replaced (hv : method.Valid) (hat : method.order[position]? = some target)
    (hfirst : first.opcode ≠ .label)
    (hrest : ∀ {k : Nat} {instruction : Instruction}, rest[k]? = some instruction →
      instruction.opcode = .label → k + 1 = rest.length ∧ position + 1 = method.length)
    {k : Nat} {handle : Handle}
    (hk : (method.replaced target position first rest).order[k]? = some handle)
    (hlabel : ((method.replaced target position first rest).get handle).opcode = .label) :
    k + 1 = (method.replaced target position first rest).length := by
  have hlt := hv.ordered.lt_of_getElem? hat
  have hin : position < method.order.length := (List.getElem?_eq_some_iff.mp hat).1
  have hcount := length_freshHandles method rest.length
  rw [length_replaced]
  rw [order_replaced, getElem?_insertBehind hin, hcount] at hk
  -- an old handle with the label was last, and stays last unless it was `target`
  have hold {j : Nat} (hj : method.order[j]? = some handle) : j + 1 = method.order.length
      ∧ j ≠ position := by
    have hne : target ≠ handle := by
      rintro rfl
      rw [get_replaced_self hlt] at hlabel
      exact hfirst hlabel
    rw [get_replaced_of_ne (hv.ordered.lt_of_getElem? hj) hne] at hlabel
    refine ⟨hv.ending hj hlabel, ?_⟩
    rintro rfl
    exact hne (Option.some.inj (hat.symm.trans hj))
  split at hk
  · have := hold hk
    omega
  · split at hk
    · obtain ⟨hfresh, heq⟩ := List.getElem?_eq_some_iff.mp hk
      rw [hcount] at hfresh
      have hhandle : handle = method.slots.size + (k - (position + 1)) := by
        rw [← heq]
        simp [freshHandles]
      have hle : method.slots.size ≤ handle := hhandle ▸ Nat.le_add_right _ _
      rw [get_replaced_fresh hle, hhandle, Nat.add_sub_cancel_left,
        List.getElem?_eq_getElem hfresh] at hlabel
      have hlast := hrest (List.getElem?_eq_getElem hfresh) hlabel
      change _ ∧ position + 1 = method.order.length at hlast
      omega
    · have := hold hk
      omega

/-- Well-formed instructions with targets inside the method can be put into it; a label may only
move to the end. -/
theorem Valid.replaced (hv : method.Valid) (hat : method.order[position]? = some target)
    (hwell : ∀ instruction ∈ first :: rest, instruction.WellFormed)
    (htargets : ∀ instruction ∈ first :: rest, ∀ handle ∈ instruction.targets,
      handle < method.slots.size + rest.length)
    (hfirst : first.opcode ≠ .label)
    (hrest : ∀ {k : Nat} {instruction : Instruction}, rest[k]? = some instruction →
      instruction.opcode = .label → k + 1 = rest.length ∧ position + 1 = method.length) :
    (method.replaced target position first rest).Valid where
  ordered := hv.ordered.replaced
  wellFormed :=
    forall_get_replaced (hv.ordered.lt_of_getElem? hat) (fun handle _ => hv.wellFormed handle) hwell
      (Instruction.wellFormed_label _)
  targets := by
    rw [size_replaced]
    refine forall_get_replaced (hv.ordered.lt_of_getElem? hat) ?_ htargets nofun
    intro handle _ target' hmem
    exact Nat.lt_of_lt_of_le (hv.targets handle target' hmem) (Nat.le_add_right _ _)
  boundaries := by
    intro boundary hmem
    rw [size_replaced]
    exact Nat.lt_of_lt_of_le (hv.boundaries boundary hmem) (Nat.le_add_right _ _)
  tries := by
    intro region hregion
    exact (idxOf_replaced_le_iff hv.ordered (hv.boundary_mem_order hregion region.tryStart_mem)
      (hv.boundary_mem_order hregion region.tryEnd_mem)).mpr (hv.tries region hregion)
  handlers := by
    intro region hregion
    exact (idxOf_replaced_le_iff hv.ordered (hv.boundary_mem_order hregion region.handlerStart_mem)
      (hv.boundary_mem_order hregion region.handlerEnd_mem)).mpr (hv.handlers region hregion)
  ending := hv.ending_replaced hat hfirst hrest

/-- An old target stays an instruction, even the one that is replaced. -/
theorem Recodable.landing_replaced (hr : method.Recodable)
    (hat : method.order[position]? = some target) (hfirst : first.opcode ≠ .label)
    {handle target' : Handle} (hmem : target' ∈ (method.get handle).targets) :
    ((method.replaced target position first rest).get target').opcode ≠ .label := by
  by_cases hself : target' = target
  · rw [hself, get_replaced_self (hr.ordered.lt_of_getElem? hat)]
    exact hfirst
  · rw [get_replaced_of_ne (hr.targets handle target' hmem) (Ne.symm hself)]
    exact hr.landing handle target' hmem

/-- The first boundary that names a label stays the end of a range. -/
theorem Opened.replaced (hopened : method.Opened) (hv : method.Valid)
    (hat : method.order[position]? = some target) (hfirst : first.opcode ≠ .label) :
    (method.replaced target position first rest).Opened := by
  intro handle _ hlabel boundary hfind
  have hlt := hv.ordered.lt_of_getElem? hat
  have hboundary : boundary.1 < method.slots.size :=
    hv.boundaries boundary (List.mem_of_find?_eq_some hfind)
  have hnamed : boundary.1 = handle := by simpa using List.find?_some hfind
  rcases get_replaced_cases position first rest hlt handle
    with ⟨-, hget⟩ | ⟨-, hold, hget⟩ | ⟨hfresh, -⟩
  · rw [hget] at hlabel
    exact absurd hlabel hfirst
  · rw [hget] at hlabel
    exact hopened handle hold hlabel boundary hfind
  · rw [hnamed] at hboundary
    exact absurd hboundary (Nat.not_lt.mpr hfresh)

/-- If moreover no new branch leads to a label, the method can still be read back. -/
theorem Recodable.replaced (hr : method.Recodable) (hat : method.order[position]? = some target)
    (hvalid : (method.replaced target position first rest).Valid) (hfirst : first.opcode ≠ .label)
    (hland : ∀ instruction ∈ first :: rest, ∀ handle ∈ instruction.targets,
      ((method.replaced target position first rest).get handle).opcode ≠ .label) :
    (method.replaced target position first rest).Recodable where
  toValid := hvalid
  landing := by
    refine forall_get_replaced (hr.ordered.lt_of_getElem? hat) ?_ hland nofun
    intro handle _ target' hmem
    exact hr.landing_replaced hat hfirst hmem
  opened := Opened.replaced hr.opened hr.toValid hat hfirst

end Replacing

end Method

end CilCoverage
