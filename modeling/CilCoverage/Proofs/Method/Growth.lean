import CilCoverage.Proofs.Method.Contents
import CilCoverage.Proofs.Method.Scopes

/-!
# Growth

A method grows out of another one when instructions are added around those that were there. What is
added is said by `Additions`, instruction by instruction, and `Method.Grown` says how it is held:
each handle of the old execution order has become a segment of the new one, which it opens.

The handle that now holds the instruction of a segment (`Grown.Own`) is where an edit happens; the
edit adds what it puts around the instruction (`Grown.replaced`), and the boundaries of the regions
are the first handles of their segments before and after. So all of a segment is in the scope that
its instruction was in (`Grown.enclosingBlocks_eq`, `Grown.scopes_eq`).
-/

set_option autoImplicit false

namespace CilCoverage

open Instruction

section Segments

variable {order : List Handle} {segment : Handle → List Handle} {handle part boundary : Handle}

/-- Which of two segments comes first is told by the handles they belong to. -/
theorem idxOf_flatMap_le_iff (hnodup : (order.flatMap segment).Nodup)
    (hopens : ∀ handle ∈ order, (segment handle).head? = some handle)
    (hboundary : boundary ∈ order) (hhandle : handle ∈ order) (hpart : part ∈ segment handle) :
    (order.flatMap segment).idxOf boundary ≤ (order.flatMap segment).idxOf part
      ↔ order.idxOf boundary ≤ order.idxOf handle := by
  induction order with
  | nil => cases hhandle
  | cons first rest ih =>
    rw [List.flatMap_cons] at hnodup ⊢
    obtain ⟨-, hrest, hapart⟩ := List.nodup_append'.mp hnodup
    have hopens' : ∀ handle ∈ rest, (segment handle).head? = some handle :=
      fun handle hmem => hopens handle (List.mem_cons_of_mem _ hmem)
    have hfirst := hopens first List.mem_cons_self
    obtain ⟨tail, htail⟩ := List.head?_eq_some_iff.mp hfirst
    -- a handle of a later segment is not in the first one
    have hlater {part handle : Handle} (hmem : handle ∈ rest) (hpart : part ∈ segment handle) :
        part ∉ segment first :=
      fun hin => hapart hin (List.mem_flatMap.mpr ⟨handle, hmem, hpart⟩)
    have hself {handle : Handle} (hmem : handle ∈ rest) : handle ∈ segment handle :=
      List.mem_of_mem_head? (hopens' handle hmem)
    have hne {handle : Handle} (hmem : handle ∈ rest) : first ≠ handle := by
      rintro rfl
      exact hlater hmem (hself hmem) (List.mem_of_mem_head? hfirst)
    rcases List.mem_cons.mp hboundary with rfl | hboundary
    · rw [htail, List.cons_append, List.idxOf_cons_self, List.idxOf_cons_self]
      simp
    · rw [List.idxOf_append_of_notMem (hlater hboundary (hself hboundary)),
        List.idxOf_cons_ne _ (hne hboundary)]
      rcases List.mem_cons.mp hhandle with rfl | hhandle
      · have hlt := List.idxOf_lt_length_of_mem hpart
        rw [List.idxOf_append_of_mem hpart, List.idxOf_cons_self]
        omega
      · rw [List.idxOf_append_of_notMem (hlater hhandle hpart), List.idxOf_cons_ne _ (hne hhandle),
          Nat.add_le_add_iff_left, Nat.succ_le_succ_iff]
        exact ih hrest hopens' hboundary hhandle

/-- The lengths of the segments before it tell the place of a handle that opens its segment. -/
theorem idxOf_flatMap (hnodup : (order.flatMap segment).Nodup)
    (hopens : ∀ handle ∈ order, (segment handle).head? = some handle) (hmem : handle ∈ order) :
    (order.flatMap segment).idxOf handle
      = ((order.take (order.idxOf handle)).map fun earlier => (segment earlier).length).sum := by
  induction order with
  | nil => cases hmem
  | cons first rest ih =>
    rw [List.flatMap_cons] at hnodup ⊢
    obtain ⟨-, hrest, hapart⟩ := List.nodup_append'.mp hnodup
    obtain ⟨tail, htail⟩ := List.head?_eq_some_iff.mp (hopens first List.mem_cons_self)
    by_cases hself : first = handle
    · subst hself
      rw [htail, List.cons_append, List.idxOf_cons_self, List.idxOf_cons_self]
      rfl
    · have hlater := (List.mem_cons.mp hmem).resolve_left (Ne.symm hself)
      have hopens' : ∀ handle ∈ rest, (segment handle).head? = some handle :=
        fun handle hin => hopens handle (List.mem_cons_of_mem _ hin)
      have hout : handle ∉ segment first := fun hin => hapart hin
        (List.mem_flatMap.mpr ⟨handle, hlater, List.mem_of_mem_head? (hopens' handle hlater)⟩)
      rw [List.idxOf_append_of_notMem hout, List.idxOf_cons_ne _ hself, List.take_succ_cons,
        List.map_cons, List.sum_cons, ih hrest hopens' hlater]

/-- Distinct handles have distinct segments. -/
theorem ne_of_mem_segments (hnodup : (order.flatMap segment).Nodup) {handle' part' : Handle}
    (hhandle : handle ∈ order) (hhandle' : handle' ∈ order) (hne : handle ≠ handle')
    (hpart : part ∈ segment handle) (hpart' : part' ∈ segment handle') : part ≠ part' := by
  have hapart := (List.nodup_flatMap.mp hnodup).2
  have hsymm : Std.Symm (Function.onFun List.Disjoint segment) :=
    ⟨fun _ _ hdisjoint _ hin hin' => hdisjoint hin' hin⟩
  have hdisjoint := hapart.forall hhandle hhandle' hne
  rintro rfl
  exact hdisjoint hpart hpart'

/-- What is inserted behind an element stands between it and what followed it. -/
theorem insertBehind_of_split {front back inserted : List Handle} {target : Handle}
    {position : Nat} (hnodup : (front ++ target :: back).Nodup)
    (hat : (front ++ target :: back)[position]? = some target) :
    insertBehind position inserted (front ++ target :: back)
      = front ++ target :: (inserted ++ back) := by
  have hposition : position = front.length := by
    obtain ⟨hlt, heq⟩ := List.getElem?_eq_some_iff.mp hat
    have hmiddle : (front ++ target :: back)[front.length]? = some target := by simp
    obtain ⟨hlt', heq'⟩ := List.getElem?_eq_some_iff.mp hmiddle
    exact hnodup.getElem_inj_iff.mp (heq.trans heq'.symm)
  subst hposition
  rw [insertBehind, List.take_length_add_append, List.drop_length_add_append]
  simp

end Segments

/-- What is added around the instructions of a method. -/
@[ext]
structure Additions where
  before : Handle → List Outline
  behind : Handle → List Outline

namespace Additions

/-- No additions. -/
def none : Additions := ⟨fun _ => [], fun _ => []⟩

/-- More in front of and behind an instruction, next to it. -/
def add (additions : Additions) (source : Handle) (front back : List Outline) : Additions where
  before := Function.update additions.before source (additions.before source ++ front)
  behind := Function.update additions.behind source (back ++ additions.behind source)

/-- An instruction with what is added around it. -/
def around (additions : Additions) (method : Method) (handle : Handle) : List Outline :=
  additions.before handle ++ (method.get handle).outline :: additions.behind handle

variable {additions : Additions} {method : Method} {source handle : Handle}
  {front back : List Outline}

/-- What is added in front stands next to the instruction. -/
@[simp] theorem before_add_self :
    (additions.add source front back).before source = additions.before source ++ front :=
  Function.update_self _ _ _

/-- What is added behind stands next to the instruction. -/
@[simp] theorem behind_add_self :
    (additions.add source front back).behind source = back ++ additions.behind source :=
  Function.update_self _ _ _

/-- Nothing is added in front of other instructions. -/
theorem before_add_of_ne (hne : handle ≠ source) :
    (additions.add source front back).before handle = additions.before handle :=
  Function.update_of_ne hne _ _

/-- Nothing is added behind other instructions. -/
theorem behind_add_of_ne (hne : handle ≠ source) :
    (additions.add source front back).behind handle = additions.behind handle :=
  Function.update_of_ne hne _ _

/-- Around the instruction the new additions stand inside of those before. -/
theorem around_add_self : (additions.add source front back).around method source
    = additions.before source ++ (front ++ (method.get source).outline :: back)
      ++ additions.behind source := by
  rw [around, before_add_self, behind_add_self]
  simp only [List.append_assoc, List.cons_append]

/-- Around other instructions nothing changes. -/
theorem around_add_of_ne (hne : handle ≠ source) :
    (additions.add source front back).around method handle = additions.around method handle := by
  rw [around, before_add_of_ne hne, behind_add_of_ne hne, around]

/-- To add nothing changes nothing. -/
theorem add_nil_nil : additions.add source [] [] = additions := by
  ext1
  · simp [add]
  · simp [add]

end Additions

namespace Method

/-- The instructions in execution order, each with the blocks that enclose it. -/
def scopes (method : Method) : List (Outline × List (Nat × Nat)) :=
  method.order.map fun handle => ((method.get handle).outline, method.enclosingBlocks handle)

/-- The same with additions, which are in the blocks of the instruction they are added to. -/
def scopesWith (method : Method) (additions : Additions) : List (Outline × List (Nat × Nat)) :=
  method.order.flatMap fun handle =>
    (additions.around method handle).map fun outline => (outline, method.enclosingBlocks handle)

/-- Every slot occurs once in execution order, the boundaries of the regions are slots, and no two
instructions were read from one offset. -/
structure Consistent (method : Method) : Prop extends method.Ordered where
  boundaries : ∀ boundary ∈ method.boundaries, boundary.1 < method.slots.size
  origins : ∀ one ∈ method.order, ∀ another ∈ method.order, ∀ offset,
    (method.get one).origin = some offset → (method.get another).origin = some offset →
      one = another

/-- The other method is the first one with the additions. A handle of the first method has become
the segment that it opens. -/
structure Grown (method other : Method) (additions : Additions) (segment : Handle → List Handle) :
    Prop where
  ordered : other.Ordered
  size : method.slots.size ≤ other.slots.size
  regions : other.regions = method.regions
  order : other.order = method.order.flatMap segment
  opens : ∀ handle ∈ method.order, ∃ tail, segment handle = handle :: tail
    ∧ ∀ part ∈ tail, method.slots.size ≤ part
  outlines : ∀ handle ∈ method.order,
    (segment handle).map (fun part => (other.get part).outline) = additions.around method handle
  unread : ∀ handle, ∀ outline ∈ additions.before handle ++ additions.behind handle,
    outline.origin = none
  kept : ∀ handle ∈ method.order, method.keepsEntry handle = true → additions.before handle = []

/-- The part holds the instruction of a segment; the other parts of the segment were added. -/
def Own (other : Method) (additions : Additions) (segment : List Handle) (source part : Handle) :
    Prop :=
  ∃ front back, segment = front ++ part :: back
    ∧ front.map (fun part => (other.get part).outline) = additions.before source
    ∧ back.map (fun part => (other.get part).outline) = additions.behind source

section Growing

variable {method other : Method} {additions : Additions} {segment : Handle → List Handle}
  {handle source part : Handle} {target position : Nat}

/-- A method is itself with no additions. -/
theorem Ordered.grown (ho : method.Ordered) : method.Grown method .none fun handle => [handle] where
  ordered := ho
  size := Nat.le_refl _
  regions := rfl
  order := (List.flatMap_singleton' _).symm
  opens := fun _ _ => ⟨[], rfl, nofun⟩
  outlines := fun _ _ => rfl
  unread := fun _ => nofun
  kept := fun _ _ _ => rfl

/-- Without additions an instruction is held by its own handle. -/
theorem own_none (method : Method) (handle : Handle) :
    method.Own .none [handle] handle handle :=
  ⟨[], [], rfl, rfl, rfl⟩

/-- A segment is opened by its handle. -/
theorem Grown.head?_segment (hg : method.Grown other additions segment)
    (hmem : handle ∈ method.order) : (segment handle).head? = some handle := by
  obtain ⟨tail, htail, -⟩ := hg.opens handle hmem
  rw [htail]
  rfl

/-- The parts of segments are listed. -/
theorem Grown.mem_order (hg : method.Grown other additions segment) (hmem : source ∈ method.order)
    (hpart : part ∈ segment source) : part ∈ other.order := by
  rw [hg.order]
  exact List.mem_flatMap.mpr ⟨source, hmem, hpart⟩

/-- Everything listed is part of a segment. -/
theorem Grown.exists_segment (hg : method.Grown other additions segment)
    (hmem : part ∈ other.order) : ∃ source ∈ method.order, part ∈ segment source := by
  rw [hg.order] at hmem
  exact List.mem_flatMap.mp hmem

/-- Boundaries open their segments, so a segment is on one side of every boundary. -/
theorem Grown.sameSide (hg : method.Grown other additions segment) {boundary : Handle}
    (hboundary : boundary ∈ method.order) (hmem : handle ∈ method.order)
    (hpart : part ∈ segment handle) : method.SameSide other handle part boundary where
  mem := hboundary
  mem' := hg.mem_order hboundary (List.mem_of_mem_head? (hg.head?_segment hboundary))
  le_iff := by
    have hnodup := hg.ordered.nodup
    rw [hg.order] at hnodup ⊢
    exact idxOf_flatMap_le_iff hnodup (fun _ => hg.head?_segment) hboundary hmem hpart

/-- All of a segment is in the scope of the handle that opens it. -/
theorem Grown.enclosingBlocks_eq (hg : method.Grown other additions segment)
    (hc : method.Consistent) (hmem : handle ∈ method.order) (hpart : part ∈ segment handle) :
    other.enclosingBlocks part = method.enclosingBlocks handle := by
  apply enclosingBlocks_congr hc.toOrdered hg.ordered hg.regions hmem (hg.mem_order hmem hpart)
  intro boundary hboundary
  exact hg.sameSide ((hc.mem_iff _).mpr (hc.boundaries boundary hboundary)) hmem hpart

/-- Additions are in the scope of the instruction that they are added to. -/
theorem Grown.scopes_eq (hg : method.Grown other additions segment) (hc : method.Consistent) :
    other.scopes = method.scopesWith additions := by
  rw [scopes, scopesWith, hg.order, List.map_flatMap]
  apply List.flatMap_congr
  intro handle hmem
  rw [← hg.outlines handle hmem, List.map_map]
  apply List.map_congr_left
  intro part hpart
  rw [hg.enclosingBlocks_eq hc hmem hpart]
  rfl

/-- A grown method has the instructions that it had, and between them those that were added. -/
theorem Grown.outlines_eq (hg : method.Grown other additions segment) :
    other.outlines = method.order.flatMap (additions.around method) := by
  rw [Method.outlines, hg.order, List.map_flatMap]
  apply List.flatMap_congr
  intro handle hmem
  exact hg.outlines handle hmem

/-- The part that holds the instruction has its outline. -/
theorem Grown.outline_eq_of_own (hg : method.Grown other additions segment)
    (hmem : source ∈ method.order) (hown : other.Own additions (segment source) source part) :
    (other.get part).outline = (method.get source).outline := by
  obtain ⟨front, back, hsplit, hfront, -⟩ := hown
  have houtlines := hg.outlines source hmem
  rw [hsplit, List.map_append, hfront, Additions.around] at houtlines
  exact (List.cons.inj (List.append_cancel_left houtlines)).1

/-- Only one part of a segment can have been read. -/
theorem Grown.own_of_read (hg : method.Grown other additions segment)
    (hmem : source ∈ method.order) (hpart : part ∈ segment source)
    (hread : (other.get part).origin ≠ none) : other.Own additions (segment source) source part := by
  obtain ⟨front, back, hsplit⟩ := List.append_of_mem hpart
  have houtlines := hg.outlines source hmem
  have hadded (hin : (other.get part).outline ∈ additions.before source ++ additions.behind source) :
      False := hread (hg.unread source _ hin)
  rw [hsplit, List.map_append, List.map_cons, Additions.around] at houtlines
  refine ⟨front, back, hsplit, ?_⟩
  rcases List.append_eq_append_iff.mp houtlines
    with ⟨between, hbefore, hrest⟩ | ⟨between, hfront, hrest⟩
  · cases between with
    | nil =>
      rw [List.append_nil] at hbefore
      exact ⟨hbefore.symm, (List.cons.inj hrest).2⟩
    | cons outline others =>
      rw [← (List.cons.inj hrest).1] at hbefore
      refine (hadded ?_).elim
      simp [hbefore]
  · cases between with
    | nil =>
      rw [List.append_nil] at hfront
      exact ⟨hfront, (List.cons.inj hrest).2.symm⟩
    | cons outline others =>
      refine (hadded ?_).elim
      simp [(List.cons.inj hrest).2]

/-- Nothing was added before an instruction whose handle it has kept. -/
theorem Grown.own_of_before (hg : method.Grown other additions segment)
    (hmem : source ∈ method.order) (hbefore : additions.before source = []) :
    other.Own additions (segment source) source source := by
  obtain ⟨tail, htail, -⟩ := hg.opens source hmem
  have houtlines := hg.outlines source hmem
  rw [htail, Additions.around, hbefore] at houtlines
  exact ⟨[], tail, htail, hbefore.symm, (List.cons.inj houtlines).2⟩

/-- A grown method is grown once it is laid out. -/
theorem Grown.layOut (hg : method.Grown other additions segment) :
    method.Grown other.layOut additions segment where
  ordered := hg.ordered.layOut
  size := by
    rw [size_slots_layOut]
    exact hg.size
  regions := hg.regions
  order := hg.order
  opens := hg.opens
  outlines := by
    intro handle hmem
    rw [← hg.outlines handle hmem]
    apply List.map_congr_left
    intro part _
    exact outline_eq_of_content (hg.ordered.content_layOut part)
  unread := hg.unread
  kept := hg.kept

/-- A grown method is grown with more stack. -/
theorem Grown.increaseMaxStack (hg : method.Grown other additions segment) (extra : UInt16) :
    method.Grown (other.increaseMaxStack extra) additions segment where
  ordered := ⟨hg.ordered.nodup, hg.ordered.mem_iff⟩
  size := hg.size
  regions := hg.regions
  order := hg.order
  opens := hg.opens
  outlines := hg.outlines
  unread := hg.unread
  kept := hg.kept

/-- So a method that has grown is consistent too. -/
theorem Grown.consistent (hg : method.Grown other additions segment) (hc : method.Consistent) :
    other.Consistent where
  toOrdered := hg.ordered
  boundaries := by
    intro boundary hmem
    rw [Method.boundaries, hg.regions] at hmem
    exact Nat.lt_of_lt_of_le (hc.boundaries boundary hmem) hg.size
  origins := by
    intro one hone another hanother offset horigin horigin'
    obtain ⟨source, hsource, hpart⟩ := hg.exists_segment hone
    obtain ⟨source', hsource', hpart'⟩ := hg.exists_segment hanother
    have hown := hg.own_of_read hsource hpart (horigin ▸ Option.some_ne_none offset)
    have hown' := hg.own_of_read hsource' hpart' (horigin' ▸ Option.some_ne_none offset)
    have hsame : source = source' := by
      refine hc.origins source hsource source' hsource' offset ?_ ?_
      · rw [← horigin]
        exact (congrArg Outline.origin (hg.outline_eq_of_own hsource hown)).symm
      · rw [← horigin']
        exact (congrArg Outline.origin (hg.outline_eq_of_own hsource' hown')).symm
    subst hsame
    obtain ⟨front, back, hsplit, hfront, -⟩ := hown
    obtain ⟨front', back', hsplit', hfront', -⟩ := hown'
    have hlength : front.length = front'.length := by
      simpa using congrArg List.length (hfront.trans hfront'.symm)
    exact (List.cons.inj (List.append_inj (hsplit.symm.trans hsplit') hlength).2).1

section Replacing

variable {first : Instruction} {rest : List Instruction} {front back : List Handle}

/-- The fresh handles stand in the segment of the target. -/
theorem Grown.order_replaced (hg : method.Grown other additions segment) (hm : method.Ordered)
    (hmem : source ∈ method.order) (hsplit : segment source = front ++ target :: back)
    (hat : other.order[position]? = some target) :
    (other.replaced target position first rest).order
      = method.order.flatMap (Function.update segment source
          (front ++ target :: (other.freshHandles rest.length ++ back))) := by
  obtain ⟨earlier, later, horder⟩ := List.append_of_mem hmem
  have hsingle := hm.nodup
  rw [horder, List.nodup_middle, List.nodup_cons, List.mem_append, not_or] at hsingle
  obtain ⟨⟨hearlier, hlater⟩, -⟩ := hsingle
  have hupdate {handles : List Handle} (hout : source ∉ handles) (parts : List Handle) :
      handles.flatMap (Function.update segment source parts) = handles.flatMap segment := by
    apply List.flatMap_congr
    intro handle hin
    rw [Function.update_of_ne]
    rintro rfl
    exact hout hin
  have hother : other.order = (earlier.flatMap segment ++ front) ++ target
      :: (back ++ later.flatMap segment) := by
    rw [hg.order, horder, List.flatMap_append, List.flatMap_cons, hsplit]
    simp only [List.append_assoc, List.cons_append]
  have hnodup := hg.ordered.nodup
  rw [hother] at hnodup hat
  rw [Method.order_replaced, hother, insertBehind_of_split hnodup hat, horder, List.flatMap_append,
    List.flatMap_cons, hupdate hearlier, hupdate hlater, Function.update_self]
  simp only [List.append_assoc, List.cons_append]

/-- The handle that opens a segment goes on to open it. -/
theorem Grown.opens_replaced (hg : method.Grown other additions segment)
    (hmem : source ∈ method.order) (hsplit : segment source = front ++ target :: back)
    (count : Nat) : ∃ tail, front ++ target :: (other.freshHandles count ++ back) = source :: tail
      ∧ ∀ part ∈ tail, method.slots.size ≤ part := by
  obtain ⟨tail, htail, hfresh⟩ := hg.opens source hmem
  have hnew (part : Handle) (hin : part ∈ other.freshHandles count) : method.slots.size ≤ part :=
    Nat.le_trans hg.size (List.mem_range'_1.mp hin).1
  rw [hsplit] at htail
  cases front with
  | nil =>
    obtain ⟨rfl, rfl⟩ := List.cons.inj htail
    refine ⟨other.freshHandles count ++ back, rfl, ?_⟩
    intro part hin
    rcases List.mem_append.mp hin with hin | hin
    · exact hnew part hin
    · exact hfresh part hin
  | cons head front =>
    obtain ⟨rfl, rfl⟩ := List.cons.inj htail
    refine ⟨front ++ target :: (other.freshHandles count ++ back), rfl, ?_⟩
    intro part hin
    simp only [List.mem_append, List.mem_cons] at hin
    rcases hin with hin | rfl | hin | hin
    · exact hfresh part (List.mem_append_left _ hin)
    · exact hfresh part (List.mem_append_right _ List.mem_cons_self)
    · exact hnew part hin
    · exact hfresh part (List.mem_append_right _ (List.mem_cons_of_mem _ hin))

/-- The parts next to the target keep their instructions. -/
theorem Grown.outlines_replaced (hg : method.Grown other additions segment)
    (hmem : source ∈ method.order) (hsplit : segment source = front ++ target :: back)
    (hat : other.order[position]? = some target) :
    (front ++ target :: (other.freshHandles rest.length ++ back)).map
        (fun part => ((other.replaced target position first rest).get part).outline)
      = front.map (fun part => (other.get part).outline)
        ++ ((first :: rest).map outline ++ back.map fun part => (other.get part).outline) := by
  have hnodup := hg.ordered.nodup
  rw [hg.order] at hnodup
  have hparts := (List.nodup_flatMap.mp hnodup).1 source hmem
  rw [hsplit, List.nodup_middle, List.nodup_cons, List.mem_append, not_or] at hparts
  obtain ⟨⟨hfront, hback⟩, -⟩ := hparts
  have hkept {parts : List Handle} (hin : ∀ part ∈ parts, part ∈ segment source)
      (hout : target ∉ parts) : parts.map (fun part =>
        ((other.replaced target position first rest).get part).outline)
          = parts.map fun part => (other.get part).outline := by
    apply List.map_congr_left
    intro part hpart
    have hlt := (hg.ordered.mem_iff part).mp (hg.mem_order hmem (hin part hpart))
    rw [get_replaced_of_ne hlt]
    rintro rfl
    exact hout hpart
  have hfresh := congrArg (List.map outline)
    (map_get_freshHandles other target position first rest)
  rw [List.map_map] at hfresh
  rw [List.map_append, List.map_cons, List.map_append, hkept _ hfront, hkept _ hback,
    get_replaced_self (hg.ordered.lt_of_getElem? hat), List.map_cons, ← hfresh]
  · rfl
  · intro part hpart
    rw [hsplit]
    exact List.mem_append_right _ (List.mem_cons_of_mem _ hpart)
  · intro part hpart
    rw [hsplit]
    exact List.mem_append_left _ hpart

/-- An edit adds what it puts around the instruction where it happens. -/
theorem Grown.replaced (hg : method.Grown other additions segment) (hm : method.Ordered)
    (hmem : source ∈ method.order)
    (hown : other.Own additions (segment source) source target)
    (hat : other.order[position]? = some target) (more others : List Outline)
    (houtlines : (first :: rest).map outline = more ++ (method.get source).outline :: others)
    (hunread : ∀ outline ∈ more ++ others, outline.origin = none)
    (hkept : method.keepsEntry source = true → more = []) :
    ∃ segment', method.Grown (other.replaced target position first rest)
      (additions.add source more others) segment' := by
  obtain ⟨front, back, hsplit, hfront, hback⟩ := hown
  have hnodup := hg.ordered.nodup
  rw [hg.order] at hnodup
  have hpart : target ∈ segment source := by
    rw [hsplit]
    exact List.mem_append_right _ List.mem_cons_self
  -- the fresh handles follow the part where the edit happens; no other segment changes
  refine ⟨Function.update segment source
    (front ++ target :: (other.freshHandles rest.length ++ back)), ?_⟩
  refine ⟨hg.ordered.replaced, ?_, hg.regions, hg.order_replaced hm hmem hsplit hat, ?_, ?_, ?_, ?_⟩
  · rw [size_replaced]
    exact Nat.le_trans hg.size (Nat.le_add_right _ _)
  · intro handle hhandle
    by_cases hne : handle = source
    · rw [hne, Function.update_self]
      exact hg.opens_replaced hmem hsplit _
    · rw [Function.update_of_ne hne]
      exact hg.opens handle hhandle
  · intro handle hhandle
    by_cases hne : handle = source
    · rw [hne, Function.update_self, Additions.around_add_self,
        hg.outlines_replaced hmem hsplit hat, hfront, hback, houtlines, ← List.append_assoc]
    · rw [Function.update_of_ne hne, Additions.around_add_of_ne hne, ← hg.outlines handle hhandle]
      apply List.map_congr_left
      intro part hin
      rw [get_replaced_of_ne ((hg.ordered.mem_iff part).mp (hg.mem_order hhandle hin))
        (ne_of_mem_segments hnodup hmem hhandle (Ne.symm hne) hpart hin)]
  · intro handle added hadded
    by_cases hne : handle = source
    · subst hne
      have hold := hg.unread handle added
      have hnew := hunread added
      simp only [Additions.before_add_self, Additions.behind_add_self, List.mem_append]
        at hadded hold hnew
      tauto
    · rw [Additions.before_add_of_ne hne, Additions.behind_add_of_ne hne] at hadded
      exact hg.unread handle added hadded
  · intro handle hhandle hkeeps
    by_cases hne : handle = source
    · subst hne
      rw [Additions.before_add_self, hg.kept handle hhandle hkeeps, hkept hkeeps]
      rfl
    · rw [Additions.before_add_of_ne hne]
      exact hg.kept handle hhandle hkeeps

end Replacing

end Growing

end Method

end CilCoverage
