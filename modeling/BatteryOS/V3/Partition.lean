import BatteryOS.V3.LockStep
import BatteryOS.V3.Profile
import BatteryOS.V3.System

/-! A partition of a physical battery. A child sends each request through the manager to the
source, and the three insert it in that order, each into its own queue. Under the name of a
child the three queues stay the same, so what the source has scheduled under the names of the
children is the sum of what the children have scheduled. -/

namespace BatteryOS.V3

structure ChildCall where
  child : ℕ
  now : ℤ
  currentMA : ℚ
  startTime : ℤ
  endTime : ℤ
  name : String
  sequenceNumber : ℕ

/-- The call passes three batteries: the child, the manager and the source. -/
def ChildCall.run (call : ChildCall) (w : World) : Option (Bool × World) :=
  scheduleSetCurrent call.now call.startTime call.endTime call.name call.sequenceNumber 3 w
    call.child call.currentMA

def ChildCall.insertInto (call : ChildCall) (b : Battery) : Battery :=
  b.checkMergeAndInsertEvents call.name call.currentMA call.startTime call.endTime
    call.sequenceNumber

/-- What happens to a partition while no event falls due: a child is called, or a battery is
refreshed. -/
inductive PartitionAction
  | schedule (call : ChildCall)
  | refresh (battery : ℕ) (status : BatteryStatus)

def PartitionAction.step (w : World) : PartitionAction → Option World
  | .schedule call => (call.run w).map Prod.snd
  | .refresh battery status => some (w.setStatus battery status)

def PartitionAction.exec (w : World) (actions : List PartitionAction) : Option World :=
  actions.foldlM PartitionAction.step w

structure Partition where
  source : ℕ
  manager : ℕ
  children : List ℕ

def Partition.batteries (p : Partition) : List ℕ := p.source :: p.manager :: p.children

/-- A manager over a physical source, with distinctly named children. -/
structure Partition.In (p : Partition) (w : World) : Prop where
  source : w.kind? p.source = some .physical
  manager : ∃ policyType childProportions, w.kind? p.manager =
    some (.partitionManager policyType p.source p.children childProportions)
  child : ∀ c ∈ p.children, w.kind? c = some (.partition p.manager)
  names : (p.children.map fun c => (w.battery c).batteryName).Nodup

namespace Partition

variable {p : Partition} {w w' : World}

theorem In.sameNodes (h : p.In w) (same : World.SameNodes w w') : p.In w' where
  source := (same.kind _).trans h.source
  manager := by
    obtain ⟨policyType, childProportions, kind⟩ := h.manager
    exact ⟨policyType, childProportions, (same.kind _).trans kind⟩
  child c hc := (same.kind c).trans (h.child c hc)
  names := by simpa only [same.name] using h.names

theorem In.source_ne_manager (h : p.In w) : p.source ≠ p.manager := by
  obtain ⟨policyType, childProportions, kind⟩ := h.manager
  intro e
  have source := h.source
  rw [e, kind] at source
  cases source

theorem In.source_ne_child (h : p.In w) {c : ℕ} (hc : c ∈ p.children) : p.source ≠ c := by
  rintro rfl
  have source := h.source
  rw [h.child _ hc] at source
  cases source

theorem In.manager_ne_child (h : p.In w) {c : ℕ} (hc : c ∈ p.children) : p.manager ≠ c := by
  rintro rfl
  obtain ⟨policyType, childProportions, kind⟩ := h.manager
  rw [h.child _ hc] at kind
  cases kind

theorem In.child_eq (h : p.In w) {c d : ℕ} (hc : c ∈ p.children) (hd : d ∈ p.children)
    (same : (w.battery c).batteryName = (w.battery d).batteryName) : c = d :=
  List.inj_on_of_nodup_map h.names hc hd same

theorem In.run_eq (h : p.In w) (call : ChildCall) (hc : call.child ∈ p.children) :
    call.run w =
      if (call.name = (w.battery call.child).batteryName ∧
            (w.battery call.child).refuses call.now call.currentMA call.startTime) ∨
          (call.name = (w.battery p.source).batteryName ∧
            (w.battery p.source).refuses call.now call.currentMA call.startTime) then
        some (false, w)
      else some (true, ((w.setBattery p.source call.insertInto).setBattery p.manager
        call.insertInto).setBattery call.child call.insertInto) := by
  obtain ⟨policyType, childProportions, manager⟩ := h.manager
  unfold ChildCall.run
  rw [scheduleSetCurrent_partition (h.child _ hc), scheduleSetCurrent_partitionManager manager,
    scheduleSetCurrent_physical h.source]
  by_cases child : call.name = (w.battery call.child).batteryName ∧
      (w.battery call.child).refuses call.now call.currentMA call.startTime = true
  · rw [if_pos child, if_pos (.inl child)]
  rw [if_neg child]
  by_cases source : call.name = (w.battery p.source).batteryName ∧
      (w.battery p.source).refuses call.now call.currentMA call.startTime = true
  · rw [if_pos source, if_pos (.inr source)]
    rfl
  · rw [if_neg source, if_neg (not_or.mpr ⟨child, source⟩)]
    rfl

theorem In.battery_accepted (h : p.In w) (call : ChildCall) (hc : call.child ∈ p.children)
    (i : ℕ) :
    (((w.setBattery p.source call.insertInto).setBattery p.manager
      call.insertInto).setBattery call.child call.insertInto).battery i =
      if i = p.source ∨ i = p.manager ∨ i = call.child then call.insertInto (w.battery i)
      else w.battery i := by
  obtain ⟨policyType, childProportions, manager⟩ := h.manager
  have sm := h.source_ne_manager
  have sc := h.source_ne_child hc
  have mc := h.manager_ne_child hc
  simp only [World.battery_setBattery, World.kind?_setBattery, h.source, manager, h.child _ hc,
    Option.isSome_some, and_true]
  by_cases source : i = p.source
  · simp [source, sm.symm, sc.symm]
  by_cases atManager : i = p.manager
  · simp [atManager, sm, mc.symm]
  by_cases child : i = call.child
  · simp [child, sc, mc]
  · simp [source, atManager, child, Ne.symm source, Ne.symm atManager, Ne.symm child]

end Partition

namespace Battery

/-- Under a name, the same entries and the same BEGIN, END and CANCEL events. -/
structure SameUnder (name : String) (b b' : Battery) : Prop where
  entries : ∀ k pair, pair.first.batteryName = name →
    (b.eventMap.find? k = some pair ↔ b'.eventMap.find? k = some pair)
  events : ∀ z, z.eventID ≠ .refresh → z.batteryName = name →
    (z ∈ b.eventSet ↔ z ∈ b'.eventSet)

structure Unscheduled (name : String) (b : Battery) : Prop where
  entries : ∀ k pair, b.eventMap.find? k = some pair → pair.first.batteryName ≠ name
  events : ∀ z ∈ b.eventSet, z.eventID ≠ .refresh → z.batteryName ≠ name

variable {b b' : Battery} {owner : ℕ → String} {name : String}

theorem Owned.sameUnder (h : LockStep (fun k => owner k = name) b b') (owned : b.Owned owner)
    (owned' : b'.Owned owner) : SameUnder name b b' where
  entries k pair hname := by
    have number : ∀ {c : Battery}, c.Owned owner → c.eventMap.find? k = some pair →
        owner k = name := fun hc stored => (hc.entries k pair stored).symm.trans hname
    exact ⟨fun stored => (h.eventMap k (number owned stored)).symm.trans stored,
      fun stored => (h.eventMap k (number owned' stored)).trans stored⟩
  events z hid hname := by
    have number : ∀ {c : Battery}, c.Owned owner → z ∈ c.eventSet →
        owner z.sequenceNumber = name := fun hc hz => (hc.events z hz hid).symm.trans hname
    exact ⟨fun hz => (h.eventSet _ (number owned hz) z ⟨hid, rfl⟩).mp hz,
      fun hz => (h.eventSet _ (number owned' hz) z ⟨hid, rfl⟩).mpr hz⟩

theorem Owned.lockStep_of_unscheduled (owned : b.Owned owner) (owned' : b'.Owned owner)
    (h : b.Unscheduled name) (h' : b'.Unscheduled name) :
    LockStep (fun k => owner k = name) b b' := by
  have noEntry : ∀ {c : Battery}, c.Owned owner → c.Unscheduled name → ∀ k, owner k = name →
      c.eventMap.find? k = none := by
    intro c hc hu k hk
    refine Option.eq_none_iff_forall_ne_some.mpr fun pair stored => ?_
    exact hu.entries k pair stored ((hc.entries k pair stored).trans hk)
  have noEvent : ∀ {c : Battery}, c.Owned owner → c.Unscheduled name → ∀ k, owner k = name →
      ∀ z, Scheduling k z → z ∉ c.eventSet := by
    rintro c hc hu k hk z ⟨hid, rfl⟩ hz
    exact hu.events z hz hid ((hc.events z hz hid).trans hk)
  refine ⟨fun k hk => ?_, fun k hk z hz => ?_⟩
  · rw [noEntry owned h k hk, noEntry owned' h' k hk]
  · exact iff_of_false (noEvent owned h k hk z hz) (noEvent owned' h' k hk z hz)

end Battery

namespace ChildCall

variable {call : ChildCall} {b b' : Battery} {owner : ℕ → String} {name : String}

theorem owned_insertInto (owns : owner call.sequenceNumber = call.name) (h : b.Owned owner) :
    (call.insertInto b).Owned owner :=
  h.insertEvents _ _ _ _ owns

theorem lockStep_insertInto (owns : owner call.sequenceNumber = call.name) (h : b.Owned owner)
    (h' : b'.Owned owner) (same : call.name = name)
    (step : Battery.LockStep (fun k => owner k = name) b b') :
    Battery.LockStep (fun k => owner k = name) (call.insertInto b) (call.insertInto b') := by
  refine step.insertEvents _ _ _ _ h.numbered h'.numbered (owns.trans same) ?_ ?_
  · intro k pair stored hname
    exact ((h.entries k pair stored).symm.trans hname).trans same
  · intro k pair stored hname
    exact ((h'.entries k pair stored).symm.trans hname).trans same

theorem lockStep_insertInto_other (owns : owner call.sequenceNumber = call.name)
    (h : b.Owned owner) (other : call.name ≠ name) :
    Battery.LockStep (fun k => owner k = name) (call.insertInto b) b :=
  Battery.insertEvents_other _ _ _ _ h.numbered (fun e => other (owns.symm.trans e))
    fun k pair hk stored hname => other (hname.symm.trans ((h.entries k pair stored).trans hk))

end ChildCall

namespace Partition

variable {p : Partition} {w w' : World} {owner : ℕ → String}

/-- A child calls under its own name or under one that no child has, and a sequence number
goes with one name. -/
structure Legit (p : Partition) (w : World) (owner : ℕ → String) (call : ChildCall) : Prop where
  child : call.child ∈ p.children
  name : call.name = (w.battery call.child).batteryName ∨
    ∀ c ∈ p.children, (w.battery c).batteryName ≠ call.name
  owns : owner call.sequenceNumber = call.name

/-- Under its name, each child is in step with the source and the manager. -/
structure InStep (p : Partition) (w : World) (owner : ℕ → String) : Prop where
  layout : p.In w
  owned : ∀ i ∈ p.batteries, (w.battery i).Owned owner
  step : ∀ c ∈ p.children, ∀ i ∈ [p.source, p.manager],
    Battery.LockStep (fun k => owner k = (w.battery c).batteryName) (w.battery c) (w.battery i)

theorem InStep.call (h : p.InStep w owner) {call : ChildCall} (legit : p.Legit w owner call) :
    ∃ accepted w', call.run w = some (accepted, w') ∧ World.SameNodes w w' ∧
      p.InStep w' owner := by
  rw [h.layout.run_eq call legit.child]
  split_ifs with refused
  · exact ⟨false, w, rfl, .refl w, h⟩
  refine ⟨true, _, rfl, ?_⟩
  have name : ∀ b, (call.insertInto b).batteryName = b.batteryName := fun _ => rfl
  have same : World.SameNodes w (((w.setBattery p.source call.insertInto).setBattery p.manager
      call.insertInto).setBattery call.child call.insertInto) :=
    ((World.sameNodes_setBattery _ _ name).trans (World.sameNodes_setBattery _ _ name)).trans
      (World.sameNodes_setBattery _ _ name)
  refine ⟨same, h.layout.sameNodes same, fun i hi => ?_, fun c hc i hi => ?_⟩
  · rw [h.layout.battery_accepted call legit.child]
    split_ifs
    · exact ChildCall.owned_insertInto legit.owns (h.owned i hi)
    · exact h.owned i hi
  · have above : i = p.source ∨ i = p.manager := by simpa using hi
    have member : i ∈ p.batteries := by
      rcases above with rfl | rfl <;> simp [batteries]
    have ownedChild : (w.battery c).Owned owner := h.owned c (by simp [batteries, hc])
    rw [same.name, h.layout.battery_accepted call legit.child c,
      h.layout.battery_accepted call legit.child i, if_pos (show i = p.source ∨ _ by tauto)]
    have step := h.step c hc i hi
    by_cases own : call.name = (w.battery c).batteryName
    · -- only the child itself can have called under its name
      have caller : c = call.child := by
        rcases legit.name with hname | hname
        · exact h.layout.child_eq hc legit.child (own.symm.trans hname)
        · exact absurd own.symm (hname c hc)
      rw [if_pos (.inr (.inr caller))]
      exact ChildCall.lockStep_insertInto legit.owns ownedChild (h.owned i member) own step
    · have upper := step.trans
        (ChildCall.lockStep_insertInto_other legit.owns (h.owned i member) own).symm
      split_ifs
      · exact (ChildCall.lockStep_insertInto_other legit.owns ownedChild own).trans upper
      · exact upper

theorem InStep.setStatus (h : p.InStep w owner) (battery : ℕ) (status : BatteryStatus) :
    World.SameNodes w (w.setStatus battery status) ∧
      p.InStep (w.setStatus battery status) owner := by
  have same : World.SameNodes w (w.setStatus battery status) :=
    World.sameNodes_setBattery w battery fun _ => rfl
  have queues : ∀ i, ((w.setStatus battery status).battery i).eventMap = (w.battery i).eventMap ∧
      ((w.setStatus battery status).battery i).eventSet = (w.battery i).eventSet := by
    intro i
    unfold World.setStatus
    rw [World.battery_setBattery]
    split_ifs <;> exact ⟨rfl, rfl⟩
  refine ⟨same, h.layout.sameNodes same, fun i hi => ?_, fun c hc i hi => ?_⟩
  · have owned := h.owned i hi
    exact ⟨fun k pair stored => owned.numbered k pair ((queues i).1 ▸ stored),
      fun k pair stored => owned.entries k pair ((queues i).1 ▸ stored),
      fun z hz hid => owned.events z ((queues i).2 ▸ hz) hid⟩
  · have step := h.step c hc i hi
    rw [same.name]
    refine ⟨fun k hk => ?_, fun k hk => ?_⟩
    · rw [(queues c).1, (queues i).1, step.eventMap k hk]
    · rw [(queues c).2, (queues i).2]
      exact step.eventSet k hk

theorem Legit.sameNodes (same : World.SameNodes w w') {call : ChildCall}
    (h : p.Legit w owner call) : p.Legit w' owner call where
  child := h.child
  name := by simpa only [same.name] using h.name
  owns := h.owns

theorem InStep.exec (h : p.InStep w owner) {actions : List PartitionAction}
    (legit : ∀ call, .schedule call ∈ actions → p.Legit w owner call) :
    ∃ w', PartitionAction.exec w actions = some w' ∧ World.SameNodes w w' ∧
      p.InStep w' owner := by
  induction actions generalizing w with
  | nil => exact ⟨w, rfl, .refl w, h⟩
  | cons action rest ih =>
      obtain ⟨next, step, same, inStep⟩ : ∃ next, action.step w = some next ∧
          World.SameNodes w next ∧ p.InStep next owner := by
        cases action with
        | schedule call =>
            obtain ⟨accepted, next, run, same, inStep⟩ :=
              h.call (legit call List.mem_cons_self)
            exact ⟨next, by rw [PartitionAction.step, run]; rfl, same, inStep⟩
        | refresh battery status =>
            obtain ⟨same, inStep⟩ := h.setStatus battery status
            exact ⟨_, rfl, same, inStep⟩
      obtain ⟨w', run, same', inStep'⟩ := ih inStep fun call hcall =>
        (legit call (List.mem_cons_of_mem action hcall)).sameNodes same
      refine ⟨w', ?_, same.trans same', inStep'⟩
      rw [PartitionAction.exec, List.foldlM_cons, step]
      exact run

structure Fresh (p : Partition) (w : World) (owner : ℕ → String) : Prop where
  layout : p.In w
  owned : ∀ i ∈ p.batteries, (w.battery i).Owned owner
  unscheduled : ∀ c ∈ p.children, ∀ i ∈ p.batteries,
    (w.battery i).Unscheduled (w.battery c).batteryName

theorem Fresh.inStep (h : p.Fresh w owner) : p.InStep w owner where
  layout := h.layout
  owned := h.owned
  step c hc i hi := by
    have above : i = p.source ∨ i = p.manager := by simpa using hi
    have member : i ∈ p.batteries := by
      rcases above with rfl | rfl <;> simp [batteries]
    have child : c ∈ p.batteries := by simp [batteries, hc]
    exact (h.owned c child).lockStep_of_unscheduled (h.owned i member)
      (h.unscheduled c hc c child) (h.unscheduled c hc i member)

end Partition

namespace Battery

/-- What is scheduled over the whole of `[p, q)` under some names. -/
def flowUnder (b : Battery) (names : List String) (p q : ℤ) : ℤ :=
  b.eventMap.sumBy fun k pair =>
    if pair.first.batteryName ∈ names ∧ ¬ b.Cancelled k ∧ pair.first.eventTime ≤ p ∧
      q ≤ pair.second.eventTime
    then pair.first.currentMA else 0

variable {b b' : Battery} {owner : ℕ → String} {name : String}

theorem LockStep.cancelled_iff {K : ℕ → Prop} (h : LockStep K b b') {k : ℕ} (hk : K k) :
    b.Cancelled k ↔ b'.Cancelled k := by
  have agree : ∀ z : Event, z.eventID = .cancelSetCurrentEvent → z.sequenceNumber = k →
      (z ∈ b.eventSet ↔ z ∈ b'.eventSet) :=
    fun z hid number => h.eventSet k hk z ⟨by rw [hid]; decide, number⟩
  exact ⟨fun ⟨z, hz, hid, number⟩ => ⟨z, (agree z hid number).mp hz, hid, number⟩,
    fun ⟨z, hz, hid, number⟩ => ⟨z, (agree z hid number).mpr hz, hid, number⟩⟩

theorem LockStep.flowUnder (h : LockStep (fun k => owner k = name) b b') (owned : b.Owned owner)
    (owned' : b'.Owned owner) (p q : ℤ) : b.flowUnder [name] p q = b'.flowUnder [name] p q := by
  refine OrderedMap.sumBy_congr fun k => ?_
  by_cases hk : owner k = name
  · rw [h.eventMap k hk]
    simp only [h.cancelled_iff hk]
  · have skipped : ∀ {c : Battery}, c.Owned owner → (c.eventMap.find? k).elim 0
        (fun pair => if pair.first.batteryName ∈ [name] ∧ ¬ c.Cancelled k ∧
          pair.first.eventTime ≤ p ∧ q ≤ pair.second.eventTime
          then pair.first.currentMA else 0) = 0 := by
      intro c hc
      cases stored : c.eventMap.find? k with
      | none => rfl
      | some pair =>
          have other : pair.first.batteryName ≠ name := fun e =>
            hk ((hc.entries k pair stored).symm.trans e)
          simp [other]
    rw [skipped owned, skipped owned']

theorem flowUnder_eq_sum {names : List String} (nodup : names.Nodup) (p q : ℤ) :
    b.flowUnder names p q = (names.map fun n => b.flowUnder [n] p q).sum := by
  induction names with
  | nil => simp [Battery.flowUnder, OrderedMap.sumBy]
  | cons n rest ih =>
      obtain ⟨fresh, nodup⟩ := List.nodup_cons.mp nodup
      rw [List.map_cons, List.sum_cons, ← ih nodup]
      unfold Battery.flowUnder
      rw [← OrderedMap.sumBy_add]
      refine OrderedMap.sumBy_congr fun k => ?_
      cases b.eventMap.find? k with
      | none => rfl
      | some pair =>
          simp only [Option.elim_some, List.mem_cons, List.not_mem_nil, or_false]
          by_cases first : pair.first.batteryName = n
          · have : pair.first.batteryName ∉ rest := first ▸ fresh
            simp [first, fresh]
          · simp [first]

end Battery

/-- After every run of calls on the children, each under its own name or a name that no child
has, every child has under its name the entries and events of the manager and the source, and
the source has scheduled under their names the sum of what they have scheduled. -/
theorem Partition.sum_law {p : Partition} {w : World} {owner : ℕ → String} (h : p.Fresh w owner)
    {actions : List PartitionAction}
    (legit : ∀ call, .schedule call ∈ actions → p.Legit w owner call) :
    ∃ w', PartitionAction.exec w actions = some w' ∧
      (∀ c ∈ p.children,
        Battery.SameUnder (w.battery c).batteryName (w'.battery c) (w'.battery p.manager) ∧
        Battery.SameUnder (w.battery c).batteryName (w'.battery c) (w'.battery p.source)) ∧
      ∀ t u, (w'.battery p.source).flowUnder
          (p.children.map fun c => (w.battery c).batteryName) t u =
        (p.children.map fun c =>
          (w'.battery c).flowUnder [(w.battery c).batteryName] t u).sum := by
  obtain ⟨w', run, same, after⟩ := h.inStep.exec legit
  have names : ∀ c, (w'.battery c).batteryName = (w.battery c).batteryName := same.name
  have manager := after.owned p.manager (by simp [batteries])
  have source := after.owned p.source (by simp [batteries])
  have child : ∀ c ∈ p.children, (w'.battery c).Owned owner :=
    fun c hc => after.owned c (by simp [batteries, hc])
  refine ⟨w', run, fun c hc => ⟨?_, ?_⟩, fun t u => ?_⟩
  · have step := after.step c hc p.manager (by simp)
    rw [names] at step
    exact Battery.Owned.sameUnder step (child c hc) manager
  · have step := after.step c hc p.source (by simp)
    rw [names] at step
    exact Battery.Owned.sameUnder step (child c hc) source
  · rw [Battery.flowUnder_eq_sum h.layout.names, List.map_map]
    refine congrArg List.sum (List.map_congr_left fun c hc => ?_)
    have step := after.step c hc p.source (by simp)
    rw [names] at step
    exact (step.flowUnder (child c hc) source t u).symm

def halfLimits (batteryName : String) : Battery :=
  { Battery.new batteryName 1000 .lazy with
    status := ⟨5, 0, 500, 1000, 500, 500, 0⟩ }

def halves : World :=
  [⟨halfLimits "source", .physical⟩,
    ⟨halfLimits "manager", .partitionManager .proportional 0 [2, 3] [⟨1/2, 1/2⟩, ⟨1/2, 1/2⟩]⟩,
    ⟨halfLimits "a", .partition 1⟩, ⟨halfLimits "b", .partition 1⟩]

theorem halfLimits_fresh (owner : ℕ → String) (batteryName name : String) :
    (halfLimits batteryName).Owned owner ∧ (halfLimits batteryName).Unscheduled name := by
  have noEntry : ∀ k, (halfLimits batteryName).eventMap.find? k = none := fun _ => rfl
  have noEvent : ∀ z, z ∉ (halfLimits batteryName).eventSet := fun _ => List.not_mem_nil
  refine ⟨⟨fun k pair h => ?_, fun k pair h => ?_, fun z hz => ?_⟩,
    ⟨fun k pair h => ?_, fun z hz => ?_⟩⟩
  · rw [noEntry] at h
    cases h
  · rw [noEntry] at h
    cases h
  · exact absurd hz (noEvent z)
  · rw [noEntry] at h
    cases h
  · exact absurd hz (noEvent z)

theorem halves_fresh (owner : ℕ → String) : Partition.Fresh ⟨0, 1, [2, 3]⟩ halves owner where
  layout :=
    { source := rfl
      manager := ⟨_, _, rfl⟩
      child := by decide
      names := by decide }
  owned i hi := by
    simp [Partition.batteries] at hi
    rcases hi with rfl | rfl | rfl | rfl <;> exact (halfLimits_fresh owner _ "").1
  unscheduled c hc i hi := by
    simp [Partition.batteries] at hi
    rcases hi with rfl | rfl | rfl | rfl <;> exact (halfLimits_fresh owner _ _).2

/-- Two children, one of them overwriting part of its own request, and a call too large. -/
theorem sum_law_halves :
    ∃ w', PartitionAction.exec halves
        [.schedule ⟨2, 0, 100, 10, 50, "a", 1⟩, .schedule ⟨3, 0, 200, 20, 60, "b", 2⟩,
          .schedule ⟨2, 5, 50, 20, 30, "a", 3⟩, .schedule ⟨2, 5, 501, 20, 30, "a", 4⟩] = some w' ∧
      (∀ c ∈ [2, 3],
        Battery.SameUnder (halves.battery c).batteryName (w'.battery c) (w'.battery 1) ∧
        Battery.SameUnder (halves.battery c).batteryName (w'.battery c) (w'.battery 0)) ∧
      ∀ t u, (w'.battery 0).flowUnder ([2, 3].map fun c => (halves.battery c).batteryName) t u =
        ([2, 3].map fun c => (w'.battery c).flowUnder [(halves.battery c).batteryName] t u).sum := by
  refine Partition.sum_law (p := ⟨0, 1, [2, 3]⟩)
    (halves_fresh fun k => if k = 2 then "b" else "a") fun call hcall => ?_
  simp only [List.mem_cons, List.not_mem_nil, or_false, PartitionAction.schedule.injEq] at hcall
  rcases hcall with rfl | rfl | rfl | rfl <;>
    exact ⟨by decide, .inl (by decide), by decide⟩

/-- A call on child a under the name of child b is not seen by b, and a number that a used
before is taken over at the source when b uses it. -/
theorem sibling_name_unseen :
    Partition.Fresh ⟨0, 1, [2, 3]⟩ halves (fun _ => "b") ∧
      (∃ w', PartitionAction.exec halves [.schedule ⟨2, 0, 100, 10, 50, "b", 7⟩] = some w' ∧
        ¬ Battery.SameUnder "b" (w'.battery 3) (w'.battery 0)) ∧
      ∃ w', PartitionAction.exec halves
          [.schedule ⟨2, 0, 100, 10, 50, "a", 7⟩, .schedule ⟨3, 0, 200, 20, 60, "b", 7⟩] = some w' ∧
        ¬ Battery.SameUnder "a" (w'.battery 2) (w'.battery 0) := by
  refine ⟨halves_fresh _, ?_, ?_⟩
  · obtain ⟨w', run, stored⟩ := Option.map_eq_some_iff.mp (show
      (PartitionAction.exec halves [.schedule ⟨2, 0, 100, 10, 50, "b", 7⟩]).map
        (fun w' => ((w'.battery 3).eventMap.find? 7, (w'.battery 0).eventMap.find? 7)) =
      some (none, some (requestPair "b" 100 10 50 7)) by decide +kernel)
    obtain ⟨child, source⟩ := Prod.mk_inj.mp stored
    refine ⟨w', run, fun same => ?_⟩
    have missing := (same.entries 7 _ rfl).mpr source
    rw [child] at missing
    cases missing
  · obtain ⟨w', run, stored⟩ := Option.map_eq_some_iff.mp (show
      (PartitionAction.exec halves [.schedule ⟨2, 0, 100, 10, 50, "a", 7⟩,
        .schedule ⟨3, 0, 200, 20, 60, "b", 7⟩]).map
        (fun w' => ((w'.battery 2).eventMap.find? 7, (w'.battery 0).eventMap.find? 7)) =
      some (some (requestPair "a" 100 10 50 7), some (requestPair "b" 300 20 60 7)) by
        decide +kernel)
    obtain ⟨child, source⟩ := Prod.mk_inj.mp stored
    refine ⟨w', run, fun same => ?_⟩
    have kept := (same.entries 7 _ rfl).mp child
    rw [source] at kept
    exact absurd kept (by decide)

end BatteryOS.V3
