import CilCoverage.Method.Scope
import CilCoverage.Proofs.Method.Validity

/-!
# Scopes

The scope of an instruction is told by comparing its place with those of the boundaries of the
regions. So instructions of two methods with the same regions have the same scope if they stand on
the same side of every boundary (`enclosingBlocks_congr`).
-/

set_option autoImplicit false

namespace CilCoverage

/-- The handles of a block are boundaries of its region. -/
theorem Region.block_mem_boundaries {region : Region} {block : Handle × Handle}
    (hmem : block ∈ region.blocks) :
    (block.1, false) ∈ region.boundaries ∧ ∃ isEnd, (block.2, isEnd) ∈ region.boundaries := by
  unfold Region.blocks at hmem
  cases hhandler : region.handler with
  | filtering start =>
    have hfilter : region.filterStart? = some start := by
      rw [Region.filterStart?, hhandler]
    simp only [hhandler, List.mem_cons, List.not_mem_nil, or_false] at hmem
    rcases hmem with rfl | rfl | rfl
    · exact ⟨region.tryStart_mem, true, region.tryEnd_mem⟩
    · exact ⟨Region.filterStart_mem hfilter, false, region.handlerStart_mem⟩
    · exact ⟨region.handlerStart_mem, true, region.handlerEnd_mem⟩
  | _ =>
    simp only [hhandler, List.mem_cons, List.not_mem_nil, or_false] at hmem
    rcases hmem with rfl | rfl
    · exact ⟨region.tryStart_mem, true, region.tryEnd_mem⟩
    · exact ⟨region.handlerStart_mem, true, region.handlerEnd_mem⟩

namespace Method

variable {method other : Method} {handle handle' : Handle}

/-- A listed handle has the position at which it is found. -/
theorem Ordered.position?_of_mem (ho : method.Ordered) (hmem : handle ∈ method.order) :
    method.position? handle = some (method.order.idxOf handle) :=
  ho.position?_of_getElem? (getElem?_idxOf hmem)

/-- The place of a handle tells on which side of a boundary it is. -/
structure SameSide (method other : Method) (handle handle' boundary : Handle) : Prop where
  mem : boundary ∈ method.order
  mem' : boundary ∈ other.order
  le_iff : other.order.idxOf boundary ≤ other.order.idxOf handle'
    ↔ method.order.idxOf boundary ≤ method.order.idxOf handle

/-- On the same sides of the boundaries a handle is in the same blocks. -/
theorem isInside_congr (ho : method.Ordered) (ho' : other.Ordered) {block : Handle × Handle}
    (hstart : method.SameSide other handle handle' block.1)
    (hend : method.SameSide other handle handle' block.2) :
    other.isInside (other.order.idxOf handle') block
      = method.isInside (method.order.idxOf handle) block := by
  have hlast := hend.le_iff
  simp only [isInside, ho'.position?_of_mem hstart.mem', ho'.position?_of_mem hend.mem',
    ho.position?_of_mem hstart.mem, ho.position?_of_mem hend.mem]
  rw [decide_eq_decide.mpr hstart.le_iff]
  congr 1
  rw [decide_eq_decide]
  omega

/-- Instructions that are on the same side of every boundary have the same scope. -/
theorem enclosingBlocks_congr (ho : method.Ordered) (ho' : other.Ordered)
    (hregions : other.regions = method.regions) (hmem : handle ∈ method.order)
    (hmem' : handle' ∈ other.order)
    (hside : ∀ boundary ∈ method.boundaries, method.SameSide other handle handle' boundary.1) :
    other.enclosingBlocks handle' = method.enclosingBlocks handle := by
  simp only [enclosingBlocks, ho'.position?_of_mem hmem', ho.position?_of_mem hmem, hregions]
  apply List.flatMap_congr
  rintro ⟨region, regionIndex⟩ hregion
  have hregion' : region ∈ method.regions := (List.mem_zipIdx' hregion).2 ▸ List.getElem_mem _
  apply List.filterMap_congr
  rintro ⟨block, blockIndex⟩ hblock
  have hblock' : block ∈ region.blocks := (List.mem_zipIdx' hblock).2 ▸ List.getElem_mem _
  obtain ⟨hstart, isEnd, hend⟩ := Region.block_mem_boundaries hblock'
  have hin {boundary : Handle × Bool} (hboundary : boundary ∈ region.boundaries) :=
    hside boundary (List.mem_flatMap.mpr ⟨region, hregion', hboundary⟩)
  rw [isInside_congr ho ho' (hin hstart) (hin hend)]

end Method

end CilCoverage
