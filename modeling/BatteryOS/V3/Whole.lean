import BatteryOS.V3.Isolation
import BatteryOS.V3.Lifecycle
import BatteryOS.V3.Remote
import BatteryOS.V3.Requests
import BatteryOS.V3.WakeUp

/-! Runs of the whole system. Batteries are made and removed, asked for their status and sent
requests, their event threads run and their settings change, in any order. What the devices report
is up to them, so a batch and a change of mode come with the driver that they meet. The sequence
numbers of all batteries come from one counter, and each belongs to one name. -/

namespace BatteryOS.V3

open World

/-- An arbitrary change of a battery is not a call of the program. -/
def BatteryDirectoryManager.Call.isUpdate : BatteryDirectoryManager.Call → Bool
  | .update _ _ => true
  | _ => false

inductive SystemAction
  | manager (call : BatteryDirectoryManager.Call)
  | getStatus (now : ℤ) (battery : ℕ)
  | schedule (now : ℤ) (battery : ℕ) (currentMA : ℚ) (times : Times)
  | batch (battery : ℕ) (driver : Driver) (fuel : ℕ) (now : ℤ)
  | setRefreshMode (battery : ℕ) (driver : Driver) (now : ℤ) (refreshMode : RefreshMode)
  | setMaxStaleness (battery : ℕ) (maxStaleness : ℤ)
  | setBatteryStatus (battery : ℕ) (status : BatteryStatus)

namespace SystemAction

/-- The state after an action; `none` where it does not come to its end. -/
def step (m : BatteryDirectoryManager) : SystemAction → Option BatteryDirectoryManager
  | .manager call => if call.isUpdate then none else m.step call
  | .getStatus now battery =>
    (V3.getStatus now (m.world.length + 1) m.world battery).map fun result =>
      { m with world := result.2 }
  | .schedule now battery currentMA times =>
    (m.scheduleSetCurrent now battery currentMA times).map Prod.snd
  | .batch battery driver fuel now =>
    match (m.world.battery battery).runEventThread driver fuel m.sequenceNumber now with
    | .done b sequenceNumber _ =>
      some { m with
        world := m.world.setBattery battery fun _ => b
        sequenceNumber := sequenceNumber }
    | .running | .outOfRange => none
  | .setRefreshMode battery driver now refreshMode =>
    let (b, sequenceNumber) := (m.world.battery battery).setRefreshMode driver now m.sequenceNumber
      refreshMode
    some { m with
      world := m.world.setBattery battery fun _ => b
      sequenceNumber := sequenceNumber }
  | .setMaxStaleness battery maxStaleness =>
    some { m with
      world := m.world.setBattery battery fun b => { b with maxStaleness := maxStaleness } }
  | .setBatteryStatus battery status => some { m with world := m.world.setStatus battery status }

def Proper : SystemAction → Prop
  | .schedule _ _ _ times => times.startTime < times.endTime
  | _ => True

instance : (action : SystemAction) → Decidable action.Proper
  | .schedule _ _ _ times => inferInstanceAs (Decidable (times.startTime < times.endTime))
  | .manager _ | .getStatus _ _ | .batch _ _ _ _ | .setRefreshMode _ _ _ _
  | .setMaxStaleness _ _ | .setBatteryStatus _ _ => .isTrue trivial

end SystemAction

namespace Battery

/-- A battery that is new, whose queue is as it was but for REFRESH events, or that has gone
through a batch. -/
inductive Evolves (b b' : Battery) : Prop
  | queue : b'.eventMap = b.eventMap →
      (∀ z, z.eventID ≠ .refresh → (z ∈ b'.eventSet ↔ z ∈ b.eventSet)) → Evolves b b'
  | batch {driver : Driver} {fuel n n' : ℕ} {now : ℤ} {commanded : Option ℤ} :
      b.runEventThread driver fuel n now = .done b' n' commanded → Evolves b b'
  | idle : b'.Idle → Evolves b b'

variable {b b' : Battery} {owner : ℕ → String} {n : ℕ}

theorem Evolves.refl (b : Battery) : Evolves b b := .queue rfl fun _ _ => Iff.rfl

theorem Evolves.consistent (h : Evolves b b') (consistent : b.Consistent) : b'.Consistent := by
  cases h with
  | queue map events =>
      unfold Battery.Consistent
      rw [map]
      exact Consistent.congr consistent fun z hz => events z (by rcases hz with hz | hz <;> simp [hz])
  | batch done => exact consistent.runEventThread done
  | idle idle => exact idle.consistent

/-- No entry and no event but a REFRESH is there that was not there before. -/
structure Shrinks (b b' : Battery) : Prop where
  entries : ∀ k pair, b'.eventMap.find? k = some pair → b.eventMap.find? k = some pair
  events : ∀ z ∈ b'.eventSet, z.eventID ≠ .refresh → z ∈ b.eventSet

theorem runEventThread_shrinks {driver : Driver} {fuel n n' : ℕ} {now : ℤ} {commanded : Option ℤ}
    (h : b.runEventThread driver fuel n now = .done b' n' commanded) : Shrinks b b' := by
  obtain ⟨s, c, hscan, hcancel, -, happly⟩ := runEventThread_eq_done h
  have refreshed := (scan_walked hscan (walked_begin now b)).1
  refine ⟨fun k pair stored => ?_, fun z hz hid => ?_⟩
  · have before : c.eventMap.find? k = some pair := by
      by_cases empty : c.eventSet.elems = []
      · rw [applyEvents_of_empty driver empty] at happly
        obtain rfl := (Prod.ext_iff.mp happly).1
        exact stored
      · obtain ⟨status, _, result, -⟩ := applyEvents_of_nonempty driver empty s.eventVector
        rw [result] at happly
        obtain rfl := (Prod.ext_iff.mp happly).1
        rw [foldl_applyEvent_find?] at stored
        split_ifs at stored
        exact stored
    rw [← refreshed.eventMap]
    rcases cancel_eq_some hcancel with ⟨rfl, -⟩ | ⟨x, _, -, -, -, rfl⟩
    · exact before
    · rw [OrderedMap.find?_erase] at before
      split_ifs at before
      exact before
  · exact (refreshed.events z hid).mp (mem_batch hcancel happly hz).1

theorem refreshAt_sequenceNumber (driver : Driver) (now : ℤ) (b : Battery) (n : ℕ) (iter : Event) :
    n ≤ (b.refreshAt driver now n iter).2 := by
  unfold refreshAt
  split_ifs
  · exact Nat.le_succ n
  · exact le_rfl

theorem runEventThread_batteryName {driver : Driver} {fuel n n' : ℕ} {now : ℤ}
    {commanded : Option ℤ} (h : b.runEventThread driver fuel n now = .done b' n' commanded) :
    b'.batteryName = b.batteryName ∧ n ≤ n' := by
  obtain ⟨s, c, hscan, hcancel, rfl, happly⟩ := runEventThread_eq_done h
  have refreshed := (scan_walked hscan (walked_begin now b)).1
  have later : n ≤ s.sequenceNumber :=
    (scan_invariant (I := fun s => n ≤ s.sequenceNumber) (fun _ _ _ _ le _ _ _ => le)
      (fun c k _ x le _ _ => le.trans (refreshAt_sequenceNumber driver now c k x)) hscan le_rfl).1
  refine ⟨?_, later⟩
  have cancelled : c.batteryName = b.batteryName := by
    rcases cancel_eq_some hcancel with ⟨rfl, -⟩ | ⟨x, pair, -, -, -, rfl⟩ <;>
      exact refreshed.batteryName
  by_cases empty : c.eventSet.elems = []
  · rw [applyEvents_of_empty driver empty] at happly
    obtain rfl := (Prod.ext_iff.mp happly).1
    exact cancelled
  · obtain ⟨status, _, result, -⟩ := applyEvents_of_nonempty driver empty s.eventVector
    rw [result] at happly
    obtain rfl := (Prod.ext_iff.mp happly).1
    exact (foldl_applyEvent_fields s.eventVector c).1.trans cancelled

theorem setRefreshMode_proceeds (driver : Driver) (now : ℤ) (b : Battery) (n : ℕ)
    (refreshMode : RefreshMode) :
    (b.setRefreshMode driver now n refreshMode).1.batteryName = b.batteryName ∧
      n ≤ (b.setRefreshMode driver now n refreshMode).2 := by
  unfold setRefreshMode
  split_ifs
  · exact ⟨rfl, le_rfl⟩
  · exact ⟨rfl, Nat.le_succ n⟩
  · exact ⟨rfl, le_rfl⟩

section Touched

variable {key : RequestKey}

theorem Touched.consistent (h : Touched key b b') (hlt : key.startTime < key.endTime)
    (consistent : b.Consistent) : b'.Consistent := by
  induction h with
  | refl => exact consistent
  | status status _ ih => exact ih
  | insert currentMA _ ih => exact ih.checkMergeAndInsertEvents hlt

theorem Touched.owned (h : Touched key b b') (owns : owner key.sequenceNumber = key.name)
    (owned : b.Owned owner) : b'.Owned owner := by
  induction h with
  | refl => exact owned
  | status status _ ih => exact ⟨ih.numbered, ih.entries, ih.events⟩
  | insert currentMA _ ih => exact ih.insertEvents _ _ _ _ owns

theorem Touched.drawn (h : Touched key b b') (numbered : b.Numbered)
    (entries : ∀ k pair, b.eventMap.find? k = some pair → k < n)
    (events : ∀ z ∈ b.eventSet, z.eventID ≠ .refresh → z.sequenceNumber < n)
    (own : key.sequenceNumber < n) :
    (∀ k pair, b'.eventMap.find? k = some pair → k < n) ∧
      ∀ z ∈ b'.eventSet, z.eventID ≠ .refresh → z.sequenceNumber < n := by
  suffices all : b'.Numbered ∧ (∀ k pair, b'.eventMap.find? k = some pair → k < n) ∧
      ∀ z ∈ b'.eventSet, z.eventID ≠ .refresh → z.sequenceNumber < n from all.2
  induction h with
  | refl => exact ⟨numbered, entries, events⟩
  | status status _ ih => exact ih
  | insert currentMA _ ih =>
      obtain ⟨numbered', entries', events'⟩ := ih
      refine ⟨numbered_insertEvents _ _ _ _ numbered', fun k pair stored => ?_, fun z hz hid => ?_⟩
      · rcases find?_insertEvents_cases _ _ _ _ numbered' stored with
          ⟨rfl, -⟩ | ⟨-, old, there, -⟩
        · exact own
        · exact entries' k old there
      · rcases mem_insertEvents_cases _ _ _ _ numbered' hz with
          old | ⟨-, number | ⟨pair, there, -⟩⟩
        · exact events' z old hid
        · rw [number]
          exact own
        · exact entries' _ pair there

theorem Touched.lockStep (h : Touched key b b') (owns : owner key.sequenceNumber = key.name)
    (owned : b.Owned owner) {name : String} (other : key.name ≠ name) :
    LockStep (fun k => owner k = name) b b' := by
  induction h with
  | refl => exact ⟨fun _ _ => rfl, fun k _ => .refl _ _⟩
  | status status _ ih => exact ⟨ih.eventMap, ih.eventSet⟩
  | insert currentMA touched ih =>
      have owned' := touched.owned owns owned
      refine ih.trans (LockStep.symm ?_)
      refine insertEvents_other _ _ _ _ owned'.numbered (fun e => other (owns.symm.trans e))
        fun k pair hk stored hname => other ?_
      exact hname.symm.trans ((owned'.entries k pair stored).trans hk)

end Touched

theorem Evolves.shrinks (h : Evolves b b') : Shrinks b b' := by
  cases h with
  | queue map events =>
      exact ⟨fun k pair stored => map ▸ stored, fun z hz hid => (events z hid).mp hz⟩
  | batch done => exact runEventThread_shrinks done
  | idle idle =>
      refine ⟨fun k pair stored => ?_, fun z hz hid => absurd (idle.eventSet z hz) hid⟩
      rw [idle.eventMap] at stored
      cases stored

end Battery

namespace World

variable {w w' : World}

theorem Refreshes.evolves (h : Refreshes w w') (i : ℕ) :
    Battery.Evolves (w.battery i) (w'.battery i) := by
  rw [h.battery i]
  exact .queue rfl fun _ _ => Iff.rfl

theorem Refreshes.evolves_append (h : Refreshes w w') {nodes : World}
    (idle : ∀ node ∈ nodes, node.battery.Idle) (i : ℕ) :
    Battery.Evolves (w.battery i) (World.battery (w' ++ nodes) i) := by
  by_cases hi : i < w'.length
  · rw [battery_append_left nodes hi]
    exact h.evolves i
  · obtain ⟨k, rfl⟩ := Nat.exists_eq_add_of_le (not_lt.mp hi)
    rw [battery_append_right]
    cases node : nodes[k]? with
    | none =>
        refine .idle ?_
        rw [World.battery, node]
        exact ⟨rfl, rfl, fun z hz => absurd hz (OrderedSet.not_mem_empty z)⟩
    | some new =>
        refine .idle ?_
        rw [World.battery, node]
        exact idle new (List.mem_of_getElem? node)

theorem evolves_setBattery (w : World) (i : ℕ) {b : Battery}
    (evolves : Battery.Evolves (w.battery i) b) (j : ℕ) :
    Battery.Evolves (w.battery j) ((w.setBattery i fun _ => b).battery j) := by
  rw [battery_setBattery]
  split_ifs with here
  · obtain ⟨rfl, -⟩ := here
    exact evolves
  · exact .refl _

end World

theorem partitionBatteries_idle (args : PartitionArgs) (status : BatteryStatus)
    (sequenceNumber : ℕ) (entries : List (String × ℤ × RefreshMode)) :
    (∀ b ∈ (args.partitionBatteries status sequenceNumber entries).1, b.Idle) ∧
      sequenceNumber ≤ (args.partitionBatteries status sequenceNumber entries).2 := by
  induction entries generalizing sequenceNumber with
  | nil => exact ⟨fun b hb => (by cases hb), le_rfl⟩
  | cons entry rest ih =>
      obtain ⟨name, maxStaleness, refreshMode⟩ := entry
      simp only [PartitionArgs.partitionBatteries]
      split_ifs
      · obtain ⟨idle, later⟩ := ih (sequenceNumber + 1)
        refine ⟨fun b hb => ?_, by omega⟩
        rcases List.mem_cons.mp hb with rfl | hb
        · refine ⟨rfl, rfl, fun z hz => ?_⟩
          rcases OrderedSet.mem_insert.mp hz with old | ⟨rfl, -⟩
          · exact absurd old (OrderedSet.not_mem_empty z)
          · rfl
        · exact idle b hb
      · obtain ⟨idle, later⟩ := ih sequenceNumber
        refine ⟨fun b hb => ?_, later⟩
        rcases List.mem_cons.mp hb with rfl | hb
        · exact ⟨rfl, rfl, fun z hz => absurd hz (OrderedSet.not_mem_empty z)⟩
        · exact idle b hb

namespace BatteryDirectoryManager

variable {m m' : BatteryDirectoryManager}

/-- What happens between two requests: batteries change by themselves, and numbers are drawn. -/
structure Proceeds (m m' : BatteryDirectoryManager) : Prop where
  battery : ∀ i, Battery.Evolves (m.world.battery i) (m'.world.battery i)
  sequenceNumber : m.sequenceNumber ≤ m'.sequenceNumber

theorem Proceeds.refl (m : BatteryDirectoryManager) : Proceeds m m := ⟨fun _ => .refl _, le_rfl⟩

theorem createPhysicalBattery_proceeds (m : BatteryDirectoryManager) (name : String)
    (maxStaleness : ℤ) (refreshMode : RefreshMode) :
    Proceeds m (m.createPhysicalBattery name maxStaleness refreshMode).2 := by
  have evolves := (Refreshes.refl m.world).evolves_append
    (List.forall_mem_singleton.mpr (idle_new name maxStaleness refreshMode) :
      ∀ node ∈ [(⟨Battery.new name maxStaleness refreshMode, .physical⟩ : Node)],
        node.battery.Idle)
  unfold createPhysicalBattery
  dsimp only
  split
  · exact ⟨evolves, le_rfl⟩
  · exact ⟨evolves, le_rfl⟩

theorem createAggregateBattery_proceeds (m : BatteryDirectoryManager) (now : ℤ) (name : String)
    (parentNames : List String) (maxStaleness : ℤ) (refreshMode : RefreshMode) :
    Proceeds m (m.createAggregateBattery now name parentNames maxStaleness refreshMode).2 := by
  have idle := idle_aggregate name maxStaleness refreshMode now m.sequenceNumber
  have evolves (parents : List ℕ) := (Refreshes.refl m.world).evolves_append
    (List.forall_mem_singleton.mpr idle :
      ∀ node ∈ [(⟨aggregateBattery name maxStaleness refreshMode now m.sequenceNumber,
        .aggregate parents⟩ : Node)], node.battery.Idle)
  unfold createAggregateBattery
  split
  · exact .refl m
  · exact .refl m
  · dsimp only
    split
    · exact ⟨evolves _, Nat.le_succ _⟩
    · exact ⟨evolves _, Nat.le_succ _⟩

theorem createPartitionBattery_proceeds (sound : m.Sound) {args : PartitionArgs}
    {result : List ℕ × BatteryDirectoryManager}
    (run : m.createPartitionBattery args = some result) : Proceeds m result.2 := by
  unfold createPartitionBattery at run
  split_ifs at run
  · obtain rfl := Option.some.inj run
    exact .refl m
  cases stored : m.getBattery args.sourceName with
  | none =>
      rw [stored] at run
      obtain rfl := Option.some.inj run
      exact .refl m
  | some source =>
      have hw := (sound.registered _ _ stored).1
      obtain ⟨status, w, got, refreshed, -⟩ :=
        getStatus_spec args.now sound.layered (Nat.lt_succ_of_lt hw) hw
      simp only [stored, got, Option.bind_eq_bind, Option.bind_some] at run
      obtain ⟨directory, -, made⟩ := Option.bind_eq_some_iff.mp run
      obtain rfl := Option.some.inj made
      obtain ⟨idle, later⟩ := partitionBatteries_idle args status (m.sequenceNumber + 1)
        (args.names.zip (args.maxStalenesses.zip args.refreshModes))
      refine ⟨refreshed.evolves_append fun node hnode => ?_, (Nat.le_succ _).trans later⟩
      rcases List.mem_cons.mp hnode with rfl | hnode
      · exact ⟨rfl, rfl, fun z hz => mem_singleton_refresh rfl hz⟩
      · obtain ⟨b, hb, rfl⟩ := List.mem_map.mp hnode
        exact idle b hb

/-- A request that has been sent through the batteries under its battery's own name. -/
structure Requested (m m' : BatteryDirectoryManager) (name : String) (times : Times) : Prop where
  touched : World.Touched ⟨name, times.startTime, times.endTime, m.sequenceNumber⟩ m.world m'.world
  sequenceNumber : m'.sequenceNumber = m.sequenceNumber + 1
  directory : m'.directory = m.directory

theorem scheduleSetCurrent_requested (sound : m.Sound) {now : ℤ} {battery : ℕ} {currentMA : ℚ}
    {times : Times} {accepted : Bool}
    (sent : m.scheduleSetCurrent now battery currentMA times = some (accepted, m')) :
    Requested m m' (m.world.battery battery).batteryName times := by
  unfold scheduleSetCurrent at sent
  obtain ⟨result, run, same⟩ := Option.map_eq_some_iff.mp sent
  obtain ⟨-, rfl⟩ := Prod.mk_inj.mp same
  have hw : battery < m.world.length := by
    by_contra past
    have none : m.world[battery]? = none := List.getElem?_eq_none (not_lt.mp past)
    simp only [V3.scheduleSetCurrent, none, Option.bind_eq_bind, Option.bind_none,
      reduceCtorEq] at run
  have serves : Serves _ (⟨(m.world.battery battery).batteryName, times.startTime, times.endTime,
      m.sequenceNumber⟩ : RequestKey) m.world battery :=
    scheduleSetCurrent_touched now sound.layered (Nat.lt_succ_of_lt hw) hw
  obtain ⟨_, w', run', touched⟩ := serves currentMA
  obtain rfl := Option.some.inj (run.symm.trans run')
  exact ⟨touched, rfl, rfl⟩

theorem Sound.sameNodes (h : m.Sound) {w : World} (same : SameNodes m.world w)
    (sequenceNumber : ℕ) :
    Sound { m with world := w, sequenceNumber := sequenceNumber } := by
  have length := length_of_kind same.kind
  exact Fits.grow h ⟨length.ge, fun i _ => same.kind i, fun i _ => same.name i⟩
    (same.layered h.layered)

theorem sameNodes_replace (w : World) {i : ℕ} {b : Battery}
    (name : b.batteryName = (w.battery i).batteryName) :
    SameNodes w (w.setBattery i fun _ => b) where
  kind j := kind?_setBattery w i j _
  name j := by
    rw [battery_setBattery]
    split_ifs with here
    · obtain ⟨rfl, -⟩ := here
      exact name
    · rfl

theorem call_proceeds (sound : m.Sound) {call : Call} (own : call.isUpdate = false)
    (run : m.step call = some m') : Proceeds m m' := by
  cases call with
  | createPhysicalBattery name maxStaleness refreshMode =>
      obtain rfl := Option.some.inj run
      exact createPhysicalBattery_proceeds m name maxStaleness refreshMode
  | createAggregateBattery now name parentNames maxStaleness refreshMode =>
      obtain rfl := Option.some.inj run
      exact createAggregateBattery_proceeds m now name parentNames maxStaleness refreshMode
  | createPartitionBattery args =>
      obtain ⟨result, made, rfl⟩ := Option.map_eq_some_iff.mp run
      exact createPartitionBattery_proceeds sound made
  | removeBattery name =>
      obtain ⟨result, removed, rfl⟩ := Option.map_eq_some_iff.mp run
      unfold removeBattery at removed
      cases stored : m.getBattery name with
      | none =>
          rw [stored] at removed
          obtain rfl := Option.some.inj removed
          exact .refl m
      | some battery =>
          rw [stored] at removed
          obtain ⟨_, _, rfl⟩ := Option.map_eq_some_iff.mp removed
          exact ⟨fun _ => .refl _, le_rfl⟩
  | update battery content => cases own

theorem replace_proceeds (sound : m.Sound) {battery n : ℕ} {b : Battery}
    (name : b.batteryName = (m.world.battery battery).batteryName)
    (evolves : Battery.Evolves (m.world.battery battery) b) (later : m.sequenceNumber ≤ n) :
    let m' : BatteryDirectoryManager :=
      { m with world := m.world.setBattery battery fun _ => b, sequenceNumber := n }
    m'.Sound ∧ Proceeds m m' :=
  ⟨sound.sameNodes (sameNodes_replace m.world name) n,
    evolves_setBattery m.world battery evolves, later⟩

theorem modify_proceeds (sound : m.Sound) (battery : ℕ) {f : Battery → Battery}
    (name : ∀ b, (f b).batteryName = b.batteryName) (evolves : ∀ b, Battery.Evolves b (f b)) :
    let m' : BatteryDirectoryManager := { m with world := m.world.setBattery battery f }
    m'.Sound ∧ Proceeds m m' := by
  refine ⟨sound.sameNodes (sameNodes_setBattery m.world battery name) m.sequenceNumber,
    fun i => ?_, le_rfl⟩
  rw [battery_setBattery]
  split_ifs
  · exact evolves _
  · exact .refl _

theorem getStatus_refreshes {w w' : World} (layered : w.Layered) {now : ℤ} {battery : ℕ}
    {status : BatteryStatus}
    (got : V3.getStatus now (w.length + 1) w battery = some (status, w')) : Refreshes w w' := by
  have hw : battery < w.length := by
    by_contra past
    have none : w[battery]? = none := List.getElem?_eq_none (not_lt.mp past)
    simp only [V3.getStatus, none, Option.bind_eq_bind, Option.bind_none, reduceCtorEq] at got
  obtain ⟨_, _, got', refreshed, -⟩ := getStatus_spec now layered (Nat.lt_succ_of_lt hw) hw
  obtain ⟨-, rfl⟩ := Prod.mk_inj.mp (Option.some.inj (got.symm.trans got'))
  exact refreshed

theorem system_step_cases (sound : m.Sound) {action : SystemAction}
    (run : action.step m = some m') : m'.Sound ∧
      (Proceeds m m' ∨ ∃ now battery currentMA times,
        action = .schedule now battery currentMA times ∧
        Requested m m' (m.world.battery battery).batteryName times) := by
  cases action with
  | manager call =>
      rw [SystemAction.step] at run
      split_ifs at run with own
      exact ⟨step_sound sound run, .inl (call_proceeds sound (by simpa using own) run)⟩
  | getStatus now battery =>
      obtain ⟨⟨status, w⟩, got, rfl⟩ := Option.map_eq_some_iff.mp run
      have refreshed := getStatus_refreshes sound.layered got
      exact ⟨sound.sameNodes refreshed.sameNodes m.sequenceNumber, .inl ⟨refreshed.evolves, le_rfl⟩⟩
  | schedule now battery currentMA times =>
      obtain ⟨⟨accepted, m''⟩, sent, rfl⟩ := Option.map_eq_some_iff.mp run
      have requested := scheduleSetCurrent_requested sound sent
      refine ⟨?_, .inr ⟨now, battery, currentMA, times, rfl, requested⟩⟩
      have after := sound.sameNodes requested.touched.sameNodes m''.sequenceNumber
      unfold Sound at after ⊢
      rw [requested.directory]
      exact after
  | batch battery driver fuel now =>
      rw [SystemAction.step] at run
      split at run
      next b n commanded done =>
        obtain rfl := Option.some.inj run
        obtain ⟨name, later⟩ := Battery.runEventThread_batteryName done
        exact (replace_proceeds sound name (.batch done) later).imp id .inl
      all_goals cases run
  | setRefreshMode battery driver now refreshMode =>
      obtain rfl := Option.some.inj run
      obtain ⟨name, later⟩ := Battery.setRefreshMode_proceeds driver now (m.world.battery battery)
        m.sequenceNumber refreshMode
      obtain ⟨map, events⟩ := setRefreshMode_events driver (m.world.battery battery)
        m.sequenceNumber now refreshMode
      exact (replace_proceeds sound name (.queue map events) later).imp id .inl
  | setMaxStaleness battery maxStaleness =>
      obtain rfl := Option.some.inj run
      exact (modify_proceeds sound battery (f := fun b => { b with maxStaleness := maxStaleness })
        (fun _ => rfl) fun _ => .queue rfl fun _ _ => Iff.rfl).imp id .inl
  | setBatteryStatus battery status =>
      obtain rfl := Option.some.inj run
      exact (modify_proceeds sound battery (f := fun b => { b with status := status })
        (fun _ => rfl) fun _ => .queue rfl fun _ _ => Iff.rfl).imp id .inl

/-- The numbers in the queues have been drawn, and each goes with one name. -/
structure Ledger (m : BatteryDirectoryManager) (owner : ℕ → String) : Prop where
  owned : ∀ i, (m.world.battery i).Owned owner
  entries : ∀ i k pair, (m.world.battery i).eventMap.find? k = some pair → k < m.sequenceNumber
  events : ∀ i, ∀ z ∈ (m.world.battery i).eventSet, z.eventID ≠ .refresh →
    z.sequenceNumber < m.sequenceNumber

theorem ledger_empty (owner : ℕ → String) : empty.Ledger owner := by
  have blank (i : ℕ) : empty.world.battery i = Battery.new "" 0 .lazy := rfl
  refine ⟨fun i => ?_, fun i k pair stored => ?_, fun i z hz => ?_⟩
  · rw [blank]
    exact Battery.owned_new owner "" 0 .lazy
  · rw [blank] at stored
    cases stored
  · rw [blank] at hz
    exact absurd hz (OrderedSet.not_mem_empty z)

theorem Ledger.proceeds {owner : ℕ → String} (h : m.Ledger owner) (proceeds : Proceeds m m') :
    m'.Ledger owner := by
  have shrinks := fun i => (proceeds.battery i).shrinks
  refine ⟨fun i => ⟨fun k pair stored => ?_, fun k pair stored => ?_, fun z hz hid => ?_⟩,
    fun i k pair stored => ?_, fun i z hz hid => ?_⟩
  · exact (h.owned i).numbered k pair ((shrinks i).entries k pair stored)
  · exact (h.owned i).entries k pair ((shrinks i).entries k pair stored)
  · exact (h.owned i).events z ((shrinks i).events z hz hid) hid
  · exact (h.entries i k pair ((shrinks i).entries k pair stored)).trans_le
      proceeds.sequenceNumber
  · exact (h.events i z ((shrinks i).events z hz hid) hid).trans_le proceeds.sequenceNumber

theorem Ledger.draw {owner : ℕ → String} (h : m.Ledger owner) (name : String) :
    m.Ledger (Function.update owner m.sequenceNumber name) := by
  have before {k : ℕ} (hk : k < m.sequenceNumber) :
      Function.update owner m.sequenceNumber name k = owner k :=
    Function.update_of_ne hk.ne _ _
  refine ⟨fun i => ⟨(h.owned i).numbered, fun k pair stored => ?_, fun z hz hid => ?_⟩,
    h.entries, h.events⟩
  · rw [before (h.entries i k pair stored)]
    exact (h.owned i).entries k pair stored
  · rw [before (h.events i z hz hid)]
    exact (h.owned i).events z hz hid

theorem Ledger.requested {owner : ℕ → String} (h : m.Ledger owner) {name : String} {times : Times}
    (owns : owner m.sequenceNumber = name) (requested : Requested m m' name times) :
    m'.Ledger owner := by
  have touched := requested.touched.battery
  have drawn := fun i => (touched i).drawn (h.owned i).numbered
    (fun k pair stored => Nat.lt_succ_of_lt (h.entries i k pair stored))
    (fun z hz hid => Nat.lt_succ_of_lt (h.events i z hz hid)) (Nat.lt_succ_self _)
  refine ⟨fun i => (touched i).owned owns (h.owned i), ?_, ?_⟩
  · rw [requested.sequenceNumber]
    exact fun i => (drawn i).1
  · rw [requested.sequenceNumber]
    exact fun i => (drawn i).2

variable {actions : List SystemAction}

theorem system_sound (run : StepRun.exec SystemAction.step empty actions = some m) : m.Sound :=
  StepRun.exec_kept sound_empty (fun _ _ _ h step => (system_step_cases h step).1) run

/-- In every state that the whole system reaches, the map and the queue of every battery
correspond. -/
theorem system_entriesQueued (proper : ∀ action ∈ actions, action.Proper)
    (run : StepRun.exec SystemAction.step empty actions = some m) (i : ℕ) :
    (m.world.battery i).EntriesQueued := by
  have keep : ∀ (m : BatteryDirectoryManager) (action : SystemAction) (m' : BatteryDirectoryManager),
      (m.Sound ∧ ∀ i, (m.world.battery i).Consistent) → action.Proper → action.step m = some m' →
      m'.Sound ∧ ∀ i, (m'.world.battery i).Consistent := by
    rintro m action m' ⟨sound, consistent⟩ proper step
    obtain ⟨sound', proceeds | ⟨now, battery, currentMA, times, rfl, requested⟩⟩ :=
      system_step_cases sound step
    · exact ⟨sound', fun i => (proceeds.battery i).consistent (consistent i)⟩
    · exact ⟨sound', fun i => (requested.touched.battery i).consistent proper (consistent i)⟩
  have start : empty.Sound ∧ ∀ i, (empty.world.battery i).Consistent :=
    ⟨sound_empty, fun i => (idle_new "" 0 .lazy).consistent⟩
  exact ((StepRun.exec_invariant
    (Q := fun m : BatteryDirectoryManager => m.Sound ∧ ∀ i, (m.world.battery i).Consistent) start
    keep (StepRun.along_of_forall proper) run).2 i).entriesQueued

theorem system_ledger (run : StepRun.exec SystemAction.step empty actions = some m) :
    ∃ owner, m.Ledger owner := by
  refine (StepRun.exec_kept (Q := fun m : BatteryDirectoryManager =>
    m.Sound ∧ ∃ owner, m.Ledger owner) ⟨sound_empty, fun _ => "", ledger_empty _⟩ ?_ run).2
  rintro m action m' ⟨sound, owner, ledger⟩ step
  obtain ⟨sound', proceeds | ⟨now, battery, currentMA, times, rfl, requested⟩⟩ :=
    system_step_cases sound step
  · exact ⟨sound', owner, ledger.proceeds proceeds⟩
  · exact ⟨sound', _, (ledger.draw _).requested (Function.update_self _ _ _) requested⟩

/-- In every state that the whole system reaches, a request changes nothing at any battery that
is scheduled under another name than that of the battery it is made on, whether it is accepted or
not; and a number that is stored at two batteries is stored under one name. -/
theorem system_noninterference (run : StepRun.exec SystemAction.step empty actions = some m) :
    (∀ i j k pair pair', (m.world.battery i).eventMap.find? k = some pair →
      (m.world.battery j).eventMap.find? k = some pair' →
      pair.first.batteryName = pair'.first.batteryName) ∧
    ∀ now battery currentMA times accepted m',
      m.scheduleSetCurrent now battery currentMA times = some (accepted, m') →
      ∀ name, name ≠ (m.world.battery battery).batteryName → ∀ i,
        Battery.SameUnder name (m.world.battery i) (m'.world.battery i) := by
  obtain ⟨owner, ledger⟩ := system_ledger run
  refine ⟨fun i j k pair pair' stored stored' => ?_,
    fun now battery currentMA times accepted m' sent name other i => ?_⟩
  · exact ((ledger.owned i).entries k pair stored).trans
      ((ledger.owned j).entries k pair' stored').symm
  · have requested := scheduleSetCurrent_requested (system_sound run) sent
    have drawn := ledger.draw (m.world.battery battery).batteryName
    have owns : Function.update owner m.sequenceNumber (m.world.battery battery).batteryName
        m.sequenceNumber = (m.world.battery battery).batteryName := Function.update_self _ _ _
    have touched := requested.touched.battery i
    exact Battery.Owned.sameUnder (touched.lockStep owns (drawn.owned i) other.symm)
      (drawn.owned i) (touched.owned owns (drawn.owned i))

def halvesInUse : List SystemAction :=
  [.manager (.createPhysicalBattery "p" 1000 .lazy),
    .setBatteryStatus 0 ⟨3700, 0, 500, 1000, 100, 100, 0⟩,
    .manager (.createPartitionBattery ⟨0, "p", .proportional, ["a", "b"],
      [⟨1/2, 1/2⟩, ⟨1/2, 1/2⟩], [1000, 1000], [.lazy, .active]⟩),
    .schedule 0 2 40 (.milliseconds 10 20), .schedule 0 3 30 (.milliseconds 15 40),
    .batch 0 .still 9 12, .schedule 12 2 (-20) (.milliseconds 12 50), .getStatus 2000 3]

theorem system_entriesQueued_halves :
    ∃ m, StepRun.exec SystemAction.step empty halvesInUse = some m ∧
      (m.world.battery 0).EntriesQueued := by
  obtain ⟨m, run⟩ := Option.isSome_iff_exists.mp (show
    (StepRun.exec SystemAction.step empty halvesInUse).isSome = true by decide +kernel)
  refine ⟨m, run, system_entriesQueued (fun action member => ?_) run 0⟩
  simp only [halvesInUse, List.mem_cons, List.not_mem_nil, or_false] at member
  rcases member with rfl | rfl | rfl | rfl | rfl | rfl | rfl | rfl <;> decide

theorem system_noninterference_halves :
    ∃ m, StepRun.exec SystemAction.step empty halvesInUse = some m ∧
      (∀ i j k pair pair', (m.world.battery i).eventMap.find? k = some pair →
        (m.world.battery j).eventMap.find? k = some pair' →
        pair.first.batteryName = pair'.first.batteryName) ∧
      ∀ now battery currentMA times accepted m',
        m.scheduleSetCurrent now battery currentMA times = some (accepted, m') →
        ∀ name, name ≠ (m.world.battery battery).batteryName → ∀ i,
          Battery.SameUnder name (m.world.battery i) (m'.world.battery i) := by
  obtain ⟨m, run⟩ := Option.isSome_iff_exists.mp (show
    (StepRun.exec SystemAction.step empty halvesInUse).isSome = true by decide +kernel)
  exact ⟨m, run, system_noninterference run⟩

end BatteryDirectoryManager

end BatteryOS.V3
