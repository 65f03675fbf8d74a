import CilCoverage.Proofs.Coverage.Levels

/-!
# Stack depth

The depth of the evaluation stack on a walk is found by adding up what the instructions do to it.
What an instruction of the body does is left open: it is a number for each offset, and 0 for `br`.
Injected code pushes constants and takes them again with its calls (`Instruction.shift`).

Every walk of an instrumented method goes along with a walk of the method as read that takes the
same paths (`Instrumented.shadowed`). Wherever the one comes to an instruction of the body, the
other does so at the same depth, and in between the depth is higher by no more than what a probe
needs. So the stack that instrumentation sets aside is enough (`instrument_staysWithin`).
-/

set_option autoImplicit false

namespace CilCoverage

open Instruction

/-- An instruction of the body that is executed, with the path that is taken and the depth of the
stack before. -/
structure Sounding where
  offset : Nat
  opcode : Opcode
  path : Nat
  depth : Int
deriving DecidableEq

/-- The second list is the first one, but for `br`s that it leaves out. -/
structure SkipsJumps (more less : List Sounding) : Prop where
  sublist : less.Sublist more
  kept : less.filter (fun sounding => sounding.opcode ≠ .br)
    = more.filter fun sounding => sounding.opcode ≠ .br

namespace SkipsJumps

variable {more less more' less' : List Sounding}

/-- Soundings skip no jump of themselves. -/
theorem refl (soundings : List Sounding) : SkipsJumps soundings soundings :=
  ⟨List.Sublist.refl _, rfl⟩

/-- Soundings that skip jumps do so one after the other. -/
theorem append (hfront : SkipsJumps more less) (hback : SkipsJumps more' less') :
    SkipsJumps (more ++ more') (less ++ less') where
  sublist := hfront.sublist.append hback.sublist
  kept := by rw [List.filter_append, List.filter_append, hfront.kept, hback.kept]

/-- Jumps can all be skipped. -/
theorem of_jumps (hjumps : ∀ sounding ∈ more, sounding.opcode = .br) : SkipsJumps more [] where
  sublist := List.nil_sublist _
  kept := by
    refine (List.filter_eq_nil_iff.mpr ?_).symm
    intro sounding hmem
    simp [hjumps sounding hmem]

end SkipsJumps

namespace Instruction

variable {net : Nat → Int} {instruction one other : Instruction}

/-- The change of the depth that an instruction makes. -/
def shift (net : Nat → Int) (instruction : Instruction) : Int :=
  if instruction.opcode = .br then 0
  else
    match instruction.origin with
    | some offset => net offset
    | none => instruction.opcode.injectedShift

/-- What is seen of an instruction that is executed at a depth. -/
def sounding? (instruction : Instruction) (path : Nat) (depth : Int) : Option Sounding :=
  instruction.origin.map fun offset => { offset, opcode := instruction.opcode, path, depth }

/-- An injected instruction shifts the depth by what its opcode does to the stack. -/
theorem shift_of_injected (hi : instruction.Injected) :
    instruction.shift net = instruction.opcode.injectedShift := by
  unfold shift
  rw [hi.origin]
  split
  · rename_i hjump
    rw [hjump]
    rfl
  · rfl

/-- The shift depends on the opcode and on the origin. -/
theorem shift_congr (hopcode : one.opcode = other.opcode) (horigin : one.origin = other.origin) :
    one.shift net = other.shift net := by
  rw [shift, shift, hopcode, horigin]

/-- An injected instruction that finds enough values on the stack changes their number as it shifts
the depth. -/
theorem length_effect (hi : instruction.Injected) (path : Nat) {stack : List Int}
    (hlong : 2 ≤ stack.length) :
    ((instruction.effect path stack).1.length : Int)
      = stack.length + instruction.opcode.injectedShift := by
  unfold effect Opcode.injectedShift
  rw [hi.origin]
  dsimp only
  split_ifs <;> simp only [List.length_cons, List.length_drop] <;> omega

end Instruction

namespace Method

variable {method other : Method} {net : Nat → Int} {cap : Nat} {handle start finish : Handle}
  {front back visits visits' : List Visit} {visit : Visit} {rest : List Visit}

/-- The change of the depth along a walk. -/
def rise (method : Method) (net : Nat → Int) (visits : List Visit) : Int :=
  (visits.map fun visit => (method.get visit.handle).shift net).sum

/-- The instructions of the body that a walk executes, which is entered at a depth. -/
def soundings (method : Method) (net : Nat → Int) (depth : Int) : List Visit → List Sounding
  | [] => []
  | visit :: rest =>
    ((method.get visit.handle).sounding? visit.path depth).toList
      ++ method.soundings net (depth + (method.get visit.handle).shift net) rest

/-- On all walks from the entries, which are entered at the given depths, the depth is never beyond
the one that the method sets aside. -/
def StaysWithin (method : Method) (net : Nat → Int) (depthAt : Entry → Int) : Prop :=
  ∀ entry start visits, method.entryAt? entry = some start → method.Walk (some start) visits →
    depthAt entry + method.rise net visits ≤ method.maxStack.toNat

/-- Without visits the depth does not change. -/
theorem rise_nil (method : Method) (net : Nat → Int) : method.rise net [] = 0 := rfl

/-- A visit and what follows it change the depth one after the other. -/
theorem rise_cons : method.rise net (visit :: rest)
    = (method.get visit.handle).shift net + method.rise net rest :=
  List.sum_cons

/-- The parts of a walk change the depth one after the other. -/
theorem rise_append : method.rise net (front ++ back)
    = method.rise net front + method.rise net back := by
  rw [rise, List.map_append, List.sum_append]
  rfl

/-- The second part of a walk is entered at the depth to which the first part leads. -/
theorem soundings_append (depth : Int) : method.soundings net depth (front ++ back)
    = method.soundings net depth front
      ++ method.soundings net (depth + method.rise net front) back := by
  induction front generalizing depth with
  | nil =>
    rw [List.nil_append, rise_nil, Int.add_zero]
    rfl
  | cons visit rest ih =>
    rw [List.cons_append, soundings, ih, soundings, rise_cons, List.append_assoc, Int.add_assoc]

section Charting

/-- Where the runtime can enter a method. -/
def entries (method : Method) : List Entry :=
  .body :: (List.range method.regions.length).flatMap fun index => [.handler index, .filter index]

/-- Every entry that leads to an instruction is listed. -/
theorem mem_entries {entry : Entry} (hentry : method.entryAt? entry = some start) :
    entry ∈ method.entries := by
  rw [entries, List.mem_cons, List.mem_flatMap]
  cases entry with
  | body => exact Or.inl rfl
  | handler index =>
    obtain ⟨region, hregion, -⟩ := Option.map_eq_some_iff.mp hentry
    exact Or.inr ⟨index, List.mem_range.mpr (List.getElem?_eq_some_iff.mp hregion).1, by simp⟩
  | filter index =>
    obtain ⟨region, hregion, -⟩ := Option.bind_eq_some_iff.mp hentry
    exact Or.inr ⟨index, List.mem_range.mpr (List.getElem?_eq_some_iff.mp hregion).1, by simp⟩

/-- A chart has for each instruction a depth that is set aside. The entries do not go beyond it, and
neither do the instructions that lead there. -/
def Charted (method : Method) (net : Nat → Int) (depthAt : Entry → Int) (chart : Handle → Int) :
    Prop :=
  (∀ entry ∈ method.entries, ∀ start ∈ method.entryAt? entry, depthAt entry ≤ chart start)
    ∧ (∀ handle ∈ method.order, chart handle ≤ method.maxStack.toNat)
    ∧ ∀ handle ∈ method.order, ∀ path < (method.get handle).pathCount,
      chart handle + (method.get handle).shift net
        ≤ ((method.after? handle path).map chart).getD method.maxStack.toNat

instance decidableCharted (method : Method) (net : Nat → Int) (depthAt : Entry → Int)
    (chart : Handle → Int) : Decidable (method.Charted net depthAt chart) :=
  inferInstanceAs (Decidable (_ ∧ _ ∧ _))

/-- The depth is never beyond what is set aside if there is a chart. -/
theorem Valid.staysWithin_of_charted (hv : method.Valid) {depthAt : Entry → Int}
    {chart : Handle → Int} (hc : method.Charted net depthAt chart) :
    method.StaysWithin net depthAt := by
  obtain ⟨hentered, hreserved, hpassed⟩ := hc
  have hwalked (visits : List Visit) : ∀ handle ∈ method.order, method.Walk (some handle) visits →
      chart handle + method.rise net visits ≤ method.maxStack.toNat := by
    induction visits with
    | nil =>
      intro handle hmem _
      exact (Int.add_zero _).le.trans (hreserved handle hmem)
    | cons visit rest ih =>
      intro handle hmem hwalk
      obtain ⟨hhandle, hknown, hrest⟩ := walk_cons_iff.mp hwalk
      cases hhandle
      have hstep := hpassed visit.handle hmem visit.path hknown
      rw [rise_cons, ← Int.add_assoc]
      cases hmove : method.after? visit.handle visit.path with
      | none =>
        rw [hmove] at hrest hstep
        rw [hrest.eq_nil]
        exact (Int.add_zero _).le.trans hstep
      | some next =>
        rw [hmove] at hrest hstep
        exact (Int.add_le_add_right hstep _).trans (ih next (hv.mem_of_after? hmove) hrest)
  intro entry start visits hentry hwalk
  have hstart := hentered entry (mem_entries hentry) start hentry
  exact (Int.add_le_add_right hstart _).trans
    (hwalked visits start (hv.entryAt?_mem hentry) hwalk)

end Charting

section Injecting

/-- Injected code that finds enough values on the stack changes their number as it shifts the
depth. -/
theorem length_perform (net : Nat → Int)
    (hinjected : ∀ visit ∈ visits, (method.get visit.handle).Injected) {stack : List Int}
    (hlong : 2 * visits.length ≤ stack.length) :
    ((method.perform stack visits).1.length : Int) = stack.length + method.rise net visits := by
  induction visits generalizing stack with
  | nil => exact (Int.add_zero _).symm
  | cons visit rest ih =>
    have hfirst := hinjected visit List.mem_cons_self
    rw [List.length_cons] at hlong
    have hlength := length_effect hfirst visit.path (Nat.le_trans (by omega) hlong)
    have hbound : -2 ≤ (method.get visit.handle).opcode.injectedShift := by
      unfold Opcode.injectedShift
      split_ifs <;> decide
    rw [perform, ih (fun visit hmem => hinjected visit (List.mem_cons_of_mem _ hmem)) (by omega),
      hlength, rise_cons, shift_of_injected hfirst]
    omega

/-- Injected code that leaves its stack as it was does so with the depth. -/
theorem rise_eq_zero (hinjected : ∀ visit ∈ visits, (method.get visit.handle).Injected)
    (hkept : ∀ stack, (method.perform stack visits).1 = stack) : method.rise net visits = 0 := by
  have hlong : 2 * visits.length ≤ (List.replicate (2 * visits.length) (0 : Int)).length :=
    List.length_replicate.ge
  have hlength := length_perform net hinjected hlong
  rw [hkept] at hlength
  omega

/-- On the way through injected code the depth stays below the levels. -/
theorem rise_le_of_leveled (net : Nat → Int) {level : Handle → Nat} (hcap : ∀ handle, level handle ≤ cap)
    (hstep : ∀ handle next, (method.get handle).Injected → method.after? handle 0 = some next →
      level handle + (method.get handle).opcode.injectedShift ≤ level next)
    (hleads : method.Leads Injected start visits finish) (hcut : front <+: visits) :
    level start + method.rise net front ≤ cap := by
  induction hleads generalizing front with
  | here handle =>
    rw [List.prefix_nil.mp hcut, rise_nil, Int.add_zero]
    exact_mod_cast hcap handle
  | @pass handle next _ _ hinjected _ hmove _ ih =>
    rcases List.prefix_cons_iff.mp hcut with rfl | ⟨front, rfl, hlater⟩
    · rw [rise_nil, Int.add_zero]
      exact_mod_cast hcap handle
    · have hnext := hstep handle next hinjected hmove
      have hrest := ih hlater
      rw [rise_cons, shift_of_injected hinjected]
      omega

/-- Nowhere in injected code the depth rises beyond the cap. -/
theorem Leveled.rise_le (hl : method.Leveled cap)
    (hleads : method.Leads Injected start visits finish) (hcut : front <+: visits) :
    method.rise net front ≤ cap := by
  obtain ⟨level, hcap, hstep⟩ := hl
  have hrise := rise_le_of_leveled net hcap hstep hleads hcut
  omega

end Injecting

/-- A walk of the other method goes along with one of the method. It takes the same paths, and it
executes the same instructions of the body at the same depths, but for `br`s that it skips. In the
end the depth is by the excess higher. -/
structure Shadows (method other : Method) (net : Nat → Int) (excess : Int)
    (visits visits' : List Visit) : Prop where
  choices : other.choices visits' = method.choices visits
  rise : other.rise net visits' = method.rise net visits + excess
  soundings : ∀ depth, SkipsJumps (method.soundings net depth visits)
    (other.soundings net depth visits')

/-- A walk of the other method from a place goes along with one of the method from there, and the
depth is higher by no more than the cap. -/
def Shadowed (method other : Method) (net : Nat → Int) (cap : Nat) (place : Option Handle)
    (visits' : List Visit) : Prop :=
  ∃ visits excess, method.Walk place visits ∧ excess ≤ (cap : Int)
    ∧ method.Shadows other net excess visits visits'

section Shadowing

variable {plan : Plan} {body : Handle → Handle} {front' back' : List Visit} {ids : List UInt32}
  {excess : Int} {path : Nat} {now : Handle}

/-- Walks that go along do so one after the other. -/
theorem Shadows.append (hfront : method.Shadows other net 0 front front')
    (hback : method.Shadows other net excess back back') :
    method.Shadows other net excess (front ++ back) (front' ++ back') where
  choices := by rw [choices_append, choices_append, hfront.choices, hback.choices]
  rise := by
    have hsame := hfront.rise
    have hexcess := hback.rise
    rw [rise_append, rise_append]
    omega
  soundings := by
    intro depth
    rw [soundings_append, soundings_append, hfront.rise, Int.add_zero]
    exact (hfront.soundings depth).append (hback.soundings _)

/-- The walk without visits goes along. -/
theorem shadowed_nil (method other : Method) (net : Nat → Int) (cap : Nat) (place : Option Handle) :
    method.Shadowed other net cap place [] :=
  ⟨[], 0, .stay place, Int.natCast_nonneg cap, rfl, rfl, fun _ => .refl []⟩

/-- Nothing is seen of injected code but what it does to the depth. -/
theorem shadows_of_injected (method : Method) (net : Nat → Int)
    (hinjected : ∀ visit ∈ visits', (other.get visit.handle).Injected) :
    method.Shadows other net (other.rise net visits') [] visits' where
  choices := choices_eq_nil_of_straight fun visit hmem => (hinjected visit hmem).straight
  rise := (Int.zero_add _).symm
  soundings := by
    have hnone : ∀ depth, other.soundings net depth visits' = [] := by
      induction visits' with
      | nil => exact fun _ => rfl
      | cons visit rest ih =>
        intro depth
        rw [soundings, sounding?, (hinjected visit List.mem_cons_self).origin]
        exact ih (fun visit hmem => hinjected visit (List.mem_cons_of_mem _ hmem)) _
    intro depth
    rw [hnone depth]
    exact .refl []

/-- The other walk may skip `br`s. -/
theorem shadows_of_jumps (other : Method) (net : Nat → Int)
    (hjumps : ∀ visit ∈ visits, (method.get visit.handle).IsJump) :
    method.Shadows other net 0 visits [] := by
  have hnone : method.rise net visits = 0
      ∧ ∀ depth, ∀ sounding ∈ method.soundings net depth visits, sounding.opcode = .br := by
    induction visits with
    | nil => exact ⟨rfl, fun _ _ hmem => absurd hmem List.not_mem_nil⟩
    | cons visit rest ih =>
      obtain ⟨hrise, hrest⟩ := ih fun visit hmem => hjumps visit (List.mem_cons_of_mem _ hmem)
      have hjump := hjumps visit List.mem_cons_self
      have hshift : (method.get visit.handle).shift net = 0 := if_pos hjump
      refine ⟨by rw [rise_cons, hshift, hrise]; rfl, ?_⟩
      intro depth sounding hmem
      rcases List.mem_append.mp hmem with hmem | hmem
      · obtain ⟨offset, -, rfl⟩ := Option.map_eq_some_iff.mp (Option.mem_toList.mp hmem)
        exact hjump
      · exact hrest _ sounding hmem
  refine ⟨?_, ?_, fun depth => .of_jumps (hnone.2 depth)⟩
  · refine (choices_eq_nil_of_straight fun visit hmem => ?_).symm
    rw [(hjumps visit hmem).flow]
    exact Flow.noConfusion
  · rw [hnone.1]
    rfl

/-- The instruction itself is executed where it stands now. -/
theorem Placed.shadows (hp : method.Placed other plan handle now) (net : Nat → Int) (path : Nat) :
    method.Shadows other net 0 [⟨handle, path⟩] [⟨now, path⟩] := by
  have hshift : (other.get now).shift net = (method.get handle).shift net :=
    shift_congr hp.opcode hp.origin
  refine ⟨?_, ?_, ?_⟩
  · simp only [choices, List.filterMap_cons, hp.flow]
    rfl
  · rw [rise_cons, rise_cons, hshift, Int.add_zero]
    rfl
  · intro depth
    have hseen : (other.get now).sounding? path depth = (method.get handle).sounding? path depth := by
      rw [sounding?, sounding?, hp.opcode, hp.origin]
    have hsame : other.soundings net depth [⟨now, path⟩]
        = method.soundings net depth [⟨handle, path⟩] :=
      congrArg (fun seen? : Option Sounding => seen?.toList ++ []) hseen
    rw [hsame]
    exact .refl _

/-- A walk ends within injected code, where the depth is bounded, or comes through with the depth
that it had. -/
theorem Reports.shadows_cases (method : Method) (hr : other.Reports start ids finish)
    (hl : other.Leveled cap) (hwalk : other.Walk (some start) visits') :
    (∃ excess ≤ (cap : Int), method.Shadows other net excess [] visits')
      ∨ ∃ front' back', visits' = front' ++ back' ∧ other.Walk (some finish) back'
        ∧ method.Shadows other net 0 [] front' := by
  obtain ⟨front', hleads, hperform⟩ := hr
  have hinjected : ∀ visit ∈ front', (other.get visit.handle).Injected := fun _ => hleads.such
  rcases hleads.walk_cases hwalk with hcut | ⟨back', rfl, hback⟩
  · refine Or.inl ⟨_, hl.rise_le hleads hcut, shadows_of_injected method net ?_⟩
    exact fun visit hmem => hinjected visit (hcut.subset hmem)
  · refine Or.inr ⟨front', back', rfl, hback, ?_⟩
    have hshadows := shadows_of_injected method net hinjected
    rwa [rise_eq_zero hinjected fun stack => congrArg Prod.fst (hperform stack)] at hshadows

/-- A walk of the instrumented method goes along with one of the method as read. -/
theorem Instrumented.shadowed (hm : method.AsRead) (hi : method.Instrumented other plan body)
    (hs : plan.Sound method) (hl : other.Leveled cap) (net : Nat → Int)
    (hmem : handle ∈ method.order) (hwalk : other.Walk (some handle) visits') :
    method.Shadowed other net cap (some handle) visits' := by
  -- the walk is cut at the instructions of the body, so the induction is on its length
  induction hlength : visits'.length using Nat.strong_induction_on generalizing handle visits' with
  | _ count ih =>
    subst hlength
    have hp := hi.placed handle hmem
    rcases hp.arrives.shadows_cases method hl hwalk
      with ⟨excess, hexcess, hcut⟩ | ⟨front', back', rfl, hback, hfront⟩
    · exact ⟨[], excess, .stay _, hexcess, hcut⟩
    cases hback with
    | stay => exact ⟨[], 0, .stay _, Int.natCast_nonneg cap, by rwa [List.append_nil]⟩
    | @go _ path rest' hknown hrest =>
      rw [hp.pathCount] at hknown
      suffices htail : method.Shadowed other net cap (method.after? handle path) rest' by
        obtain ⟨rest, excess, hwalk, hexcess, hshadows⟩ := htail
        refine ⟨⟨handle, path⟩ :: rest, excess, .go hknown hwalk, hexcess, ?_⟩
        exact hfront.append ((hp.shadows net path).append hshadows)
      cases hblock : plan.block? handle path with
      | none =>
        rw [hp.direct path hknown hblock] at hrest
        cases hmove : method.after? handle path with
        | none =>
          rw [hmove] at hrest
          rw [hrest.eq_nil]
          exact method.shadowed_nil other net cap none
        | some next =>
          rw [hmove] at hrest
          refine ih _ ?_ (hm.mem_of_after? hmove) hrest rfl
          rw [List.length_append, List.length_cons]
          omega
      | some block =>
        obtain ⟨start, hafter, hreports⟩ := hp.detour path hknown block hblock
        obtain ⟨next, jumps, hnext, hjumps⟩ := hs handle path block hblock
        rw [hafter] at hrest
        rw [hnext]
        rcases hreports.shadows_cases method hl hrest
          with ⟨excess, hexcess, hcut⟩ | ⟨way', later', rfl, hlater, hway⟩
        · exact ⟨[], excess, .stay _, hexcess, hcut⟩
        · have hexit := hm.mem_of_leads hjumps (hm.mem_of_after? hnext)
          have hshorter : later'.length < (front' ++ ⟨body handle, path⟩ :: (way' ++ later')).length := by
            simp only [List.length_append, List.length_cons]
            omega
          obtain ⟨later, excess, hwalk, hexcess, hshadows⟩ := ih _ hshorter hexit hlater rfl
          have hskipped := shadows_of_jumps other net fun visit => hjumps.such
          exact ⟨jumps ++ later, excess, hjumps.walk hwalk, hexcess,
            hskipped.append (hway.append hshadows)⟩

/-- Every walk of an instrumented method from an entry goes along with one of the method. -/
theorem Instrumented.shadowed_entry (hm : method.AsRead)
    (hi : method.Instrumented other plan body) (hs : plan.Sound method) (hl : other.Leveled cap)
    (net : Nat → Int) {entry : Entry} (hwalk : other.Walk (other.entryAt? entry) visits') :
    method.Shadowed other net cap (method.entryAt? entry) visits' := by
  rw [hi.entryAt?_eq] at hwalk
  cases hentry : method.entryAt? entry with
  | none =>
    rw [hentry] at hwalk
    rw [hwalk.eq_nil]
    exact method.shadowed_nil other net cap none
  | some start =>
    rw [hentry] at hwalk
    exact hi.shadowed hm hs hl net (hm.entryAt?_mem hentry) hwalk

end Shadowing

section Reserving

variable {points : Points} {probe : Probe} {configuration : Configuration} {placement : Placement}

/-- An insertion that takes a place over keeps the size of the stack. -/
theorem maxStack_insertTakingOver (method : Method) (target position : Nat)
    (templates : List Template) :
    (method.insertTakingOver target position templates).maxStack = method.maxStack := by
  unfold insertTakingOver
  dsimp only
  split <;> rfl

/-- An insertion keeps the size of the stack. -/
theorem maxStack_insertAt {templates : List Template} {inserted : Method}
    (hinsert : method.insertAt handle templates = .ok inserted) :
    inserted.maxStack = method.maxStack := by
  unfold insertAt at hinsert
  split at hinsert
  · rw [Except.ok.inj hinsert]
  · split at hinsert
    · cases hinsert
    · split at hinsert
      · cases hinsert
      · split at hinsert
        · rw [← Except.ok.inj hinsert]
          rfl
        · rw [← Except.ok.inj hinsert]
          exact method.maxStack_insertTakingOver ..

/-- Probes of branches keep the size of the stack. -/
theorem Ordered.maxStack_addBranchProbes (ho : method.Ordered) {points : List BranchPoint}
    {placed : Nat} (hok : (method.addBranchProbes points probe).outcome = .ok placed) :
    (method.addBranchProbes points probe).method.maxStack = method.maxStack := by
  refine addBranchProbes_keeps (I := fun other => other.maxStack = method.maxStack)
    (J := fun other => other.maxStack = method.maxStack) ?_ (fun hother => hother) ho rfl rfl hok
  intro other branch placed hother _ hone
  rw [(probeBranch_spec hone).2]
  exact hother

/-- The raised size of the stack depends on the size before. -/
theorem maxStack_increaseMaxStack_congr (hsame : other.maxStack = method.maxStack) (extra : UInt16) :
    (other.increaseMaxStack extra).maxStack = (method.increaseMaxStack extra).maxStack :=
  congrArg (fun depth : UInt16 =>
    UInt16.ofNat (min (depth.toNat + extra.toNat) (UInt16.size - 1))) hsame

/-- Where there is room for it, the size of the stack is raised by what is asked for. -/
theorem maxStack_increaseMaxStack {extra : UInt16}
    (hroom : method.maxStack.toNat + extra.toNat ≤ 65535) :
    (method.increaseMaxStack extra).maxStack.toNat = method.maxStack.toNat + extra.toNat := by
  show (UInt16.ofNat (min (method.maxStack.toNat + extra.toNat) 65535)).toNat = _
  rw [Nat.min_eq_left hroom]
  exact UInt16.toNat_ofNat_of_lt' (Nat.lt_succ_of_le hroom)

/-- The stack depth is raised if a probe was placed. -/
theorem Ordered.maxStack_instrument (ho : method.Ordered)
    (hok : (method.instrument points probe configuration).outcome = .ok placement) :
    (method.instrument points probe configuration).method.maxStack
      = if placement.total = 0 then method.maxStack
        else (method.increaseMaxStack (max configuration.extraMaxStack probe.stackDepth)).maxStack := by
  obtain ⟨routed, noted, rfl, hrouted, rfl, hnoted, hmethod⟩ := instrument_spec hok
  have hkept := addStatementProbes_run (I := fun _ other => other.maxStack = method.maxStack)
    (fun hother _ _ hinsert => (maxStack_insertAt hinsert).trans hother) []
    (ho.maxStack_addBranchProbes hrouted) hnoted
  rw [hmethod]
  split
  · exact hkept
  · exact maxStack_increaseMaxStack_congr hkept _

/-- What the probes need is set aside on top of what the method needs. -/
theorem Ordered.le_maxStack_instrument (ho : method.Ordered)
    (hok : (method.instrument points probe configuration).outcome = .ok placement)
    (hroom : method.maxStack.toNat + (max configuration.extraMaxStack probe.stackDepth).toNat
      ≤ 65535) :
    (method.maxStack.toNat + if placement.total = 0 then 0 else probe.stackDepth.toNat)
      ≤ (method.instrument points probe configuration).method.maxStack.toNat := by
  rw [ho.maxStack_instrument hok]
  split
  · exact Nat.le_refl _
  · rw [maxStack_increaseMaxStack hroom, UInt16.toNat_max]
    exact Nat.add_le_add_left (le_max_right _ _) _

end Reserving

end Method

/-- The stack that instrumentation sets aside is enough. If the depth is never beyond that of the
method as read then it is never beyond that of the instrumented method, whatever the instructions of
the body do to it. And each walk of the instrumented method executes the instructions of the body at
the depths that they have on the walk of the method as read with the same choices, but for `br`s
that it skips; all walks with these choices are prefixes of one another. -/
theorem instrument_staysWithin {data : List UInt8} {method : Method}
    (hdecode : Method.decode data = .ok method) {points : Points} {probe : Probe}
    {configuration : Configuration} {placement : Placement}
    (hplaced : (method.instrument points probe configuration).outcome = .ok placement)
    (hroom : method.maxStack.toNat + (max configuration.extraMaxStack probe.stackDepth).toNat ≤ 65535)
    {net : Nat → Int} {depthAt : Entry → Int} (hwithin : method.StaysWithin net depthAt) :
    (method.instrument points probe configuration).method.StaysWithin net depthAt
      ∧ ∀ entry visits', (method.instrument points probe configuration).method.Walk
          ((method.instrument points probe configuration).method.entryAt? entry) visits' →
        ∃ visits, method.Walk (method.entryAt? entry) visits
          ∧ method.choices visits
            = (method.instrument points probe configuration).method.choices visits'
          ∧ (∀ other, method.Walk (method.entryAt? entry) other →
            method.choices other = method.choices visits → visits <+: other ∨ other <+: visits)
          ∧ SkipsJumps (method.soundings net (depthAt entry) visits)
            ((method.instrument points probe configuration).method.soundings net (depthAt entry)
              visits') := by
  obtain ⟨raw, regions, targets, -, hd⟩ := Method.decode_spec hdecode
  obtain ⟨body, hi⟩ := hd.asRead.instrument hplaced
  have hsound := method.sound_plan points configuration
  have hleveled := hd.asRead.leveled_instrument hplaced
  have hshadowed {entry : Entry} {visits' : List Visit}
      (hwalk : (method.instrument points probe configuration).method.Walk
        ((method.instrument points probe configuration).method.entryAt? entry) visits') :=
    hi.shadowed_entry hd.asRead hsound hleveled net hwalk
  constructor
  · intro entry start visits' hentry hwalk
    rw [← hentry] at hwalk
    obtain ⟨visits, excess, hwalk', hexcess, hshadows⟩ := hshadowed hwalk
    rw [hi.entryAt?_eq] at hentry
    rw [hentry] at hwalk'
    have hdepth := hwithin entry start visits hentry hwalk'
    have hreserved := hd.asRead.ordered.le_maxStack_instrument hplaced hroom
    rw [hshadows.rise]
    omega
  · intro entry visits' hwalk
    obtain ⟨visits, excess, hwalk', -, hshadows⟩ := hshadowed hwalk
    exact ⟨visits, hwalk', hshadows.choices.symm,
      fun _ hother hsame => hwalk'.prefix_or_prefix hother hsame.symm,
      hshadows.soundings (depthAt entry)⟩

/-- What the instructions of `guardedLoop` do to the depth: `ldarg.0` pushes a value, `brtrue` and
`pop` take one. -/
def loopNet (offset : Nat) : Int := [1, -1, 0, 0, 0, -1].getD offset 0

/-- The handler of `guardedLoop` is entered with an exception on the stack. -/
def loopDepth (entry : Entry) : Int := if entry = .handler 0 then 1 else 0

/-- The depths in front of the instructions of `guardedLoop`. -/
def loopChart (handle : Handle) : Int := [0, 1, 0, 1, 0, 0].getD handle 0

/-- A collector that is called through its address. -/
def loopProbe : Probe := .unmanaged 0x7FF012345678 ⟨0x11000001⟩ .bits64

/-- Two more slots are enough for probes that push an id and an address. -/
theorem instrument_staysWithin_guardedLoop :
    ∃ method, Method.decode guardedLoop = .ok method
      ∧ (method.instrument guardedPoints loopProbe { extraMaxStack := 0 }).outcome = .ok ⟨2, 2⟩
      ∧ method.maxStack = 2
      ∧ method.StaysWithin loopNet loopDepth
      ∧ (method.instrument guardedPoints loopProbe { extraMaxStack := 0 }).method.maxStack = 4
      ∧ (method.instrument guardedPoints loopProbe { extraMaxStack := 0 }).method.StaysWithin
        loopNet loopDepth := by
  have hrun : ((Method.decode guardedLoop).bind fun method =>
      (method.instrument guardedPoints loopProbe { extraMaxStack := 0 }).outcome.bind
        fun placement => .ok (placement, method.maxStack,
          (method.instrument guardedPoints loopProbe { extraMaxStack := 0 }).method.maxStack,
          decide (method.Charted loopNet loopDepth loopChart)))
      = .ok (⟨2, 2⟩, 2, 4, true) := by decide +kernel
  obtain ⟨method, hdecode, hmethod⟩ := bind_eq_ok_iff.mp hrun
  obtain ⟨placement, hplaced, hresult⟩ := bind_eq_ok_iff.mp hmethod
  simp only [Except.ok.injEq, Prod.mk.injEq, decide_eq_true_eq] at hresult
  obtain ⟨rfl, hstack, hraised, hcharted⟩ := hresult
  obtain ⟨raw, regions, targets, -, hd⟩ := Method.decode_spec hdecode
  have hwithin := hd.asRead.toValid.staysWithin_of_charted hcharted
  have hroom : method.maxStack.toNat + (max 0 loopProbe.stackDepth).toNat ≤ 65535 := by
    rw [hstack]
    decide
  exact ⟨method, hdecode, hplaced, hstack, hwithin, hraised,
    (instrument_staysWithin hdecode hplaced hroom hwithin).1⟩

end CilCoverage
