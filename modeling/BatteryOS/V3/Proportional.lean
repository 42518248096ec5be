import BatteryOS.Library.Proportion
import BatteryOS.V3.Manager

/-! A proportional partition shares out what its source has: the capacities once, when it is
created, the limits again at every refresh. The first split finds the proportion of a child by its
name and the later ones by its place; for a partition that was created these are the same. -/

namespace BatteryOS.V3

/-- A quantity of the source, divided among the children by one component of the proportions. -/
structure Shares (field : BatteryStatus → ℚ) (proportion : Scale → ℚ) (status : BatteryStatus)
    (childProportions : List Scale) (w : World) (children : List ℕ) : Prop where
  own : List.Forall₂ (fun child scale =>
    field (w.battery child).status = field status * proportion scale) children childProportions
  sum : (children.map fun child => field (w.battery child).status).sum = field status

section Refresh

variable {w : World} {pStatus : BatteryStatus} {childProportions : List Scale} {children : List ℕ}

def Limited (pStatus : BatteryStatus) (w : World) (child : ℕ) (scale : Scale) : Prop :=
  (w.battery child).status.maxChargingCurrentMA =
      pStatus.maxChargingCurrentMA * scale.chargeProportion ∧
    (w.battery child).status.maxDischargingCurrentMA =
      pStatus.maxDischargingCurrentMA * scale.chargeProportion

theorem refreshProportional_cons (pStatus : BatteryStatus) (w : World) (child : ℕ)
    (children : List ℕ) (scale : Scale) (childProportions : List Scale) :
    refreshProportional pStatus w (child :: children) (scale :: childProportions) =
      refreshProportional pStatus (w.setLimits child
        (pStatus.maxChargingCurrentMA * scale.chargeProportion)
        (pStatus.maxDischargingCurrentMA * scale.chargeProportion)) children childProportions :=
  rfl

theorem refreshProportional_other (pStatus : BatteryStatus) (w : World) {children : List ℕ}
    (childProportions : List Scale) {i : ℕ} (other : i ∉ children) :
    (refreshProportional pStatus w children childProportions).battery i = w.battery i := by
  induction children generalizing w childProportions with
  | nil => rfl
  | cons child rest ih =>
      cases childProportions with
      | nil => rfl
      | cons scale scales =>
          rw [List.mem_cons, not_or] at other
          rw [refreshProportional_cons, ih _ _ other.2, World.setLimits,
            World.battery_setBattery_of_ne _ _ (Ne.symm other.1)]

theorem refreshProportional_limited (pStatus : BatteryStatus) (nodup : children.Nodup)
    (present : ∀ child ∈ children, child < w.length)
    (length : children.length = childProportions.length) :
    List.Forall₂ (Limited pStatus (refreshProportional pStatus w children childProportions))
      children childProportions := by
  induction children generalizing w childProportions with
  | nil =>
      rw [List.length_eq_zero_iff.mp length.symm]
      exact .nil
  | cons child rest ih =>
      cases childProportions with
      | nil => cases length
      | cons scale scales =>
          rw [List.nodup_cons] at nodup
          rw [refreshProportional_cons]
          set next := w.setLimits child (pStatus.maxChargingCurrentMA * scale.chargeProportion)
            (pStatus.maxDischargingCurrentMA * scale.chargeProportion) with hnext
          have here : child < w.length := present child List.mem_cons_self
          have limits : Limited pStatus next child scale := by
            rw [Limited, hnext, World.setLimits, World.battery_setBattery,
              if_pos ⟨rfl, World.isSome_kind?.mpr here⟩]
            exact ⟨rfl, rfl⟩
          have same : next.length = w.length := by
            rw [hnext, World.setLimits, World.setBattery, List.length_modify]
          refine .cons ?_ (ih nodup.2 (fun c hc => ?_) (Nat.succ.inj length))
          · rwa [Limited, refreshProportional_other _ _ _ nodup.1]
          · rw [same]
            exact present c (List.mem_cons_of_mem _ hc)

theorem refreshProportional_shares (pStatus : BatteryStatus) (nodup : children.Nodup)
    (present : ∀ child ∈ children, child < w.length)
    (length : children.length = childProportions.length)
    (whole : (childProportions.map Scale.chargeProportion).sum = 1) :
    let w' := refreshProportional pStatus w children childProportions
    Shares BatteryStatus.maxChargingCurrentMA Scale.chargeProportion pStatus childProportions w'
        children ∧
      Shares BatteryStatus.maxDischargingCurrentMA Scale.chargeProportion pStatus childProportions
        w' children := by
  intro w'
  have limited : List.Forall₂ (Limited pStatus w') children childProportions :=
    refreshProportional_limited pStatus nodup present length
  have charging := limited.imp fun _ _ h => h.1
  have discharging := limited.imp fun _ _ h => h.2
  exact ⟨⟨charging, Proportion.sum_split charging whole⟩,
    ⟨discharging, Proportion.sum_split discharging whole⟩⟩

end Refresh

theorem getStatus_stored {now : ℤ} {fuel : ℕ} {w w' : World} {i : ℕ} {status : BatteryStatus}
    (got : getStatus now fuel w i = some (status, w')) (layered : w.Layered) (hi : i < fuel)
    (hw : i < w.length) : (w'.battery i).status = status := by
  cases fuel with
  | zero => cases got
  | succ fuel =>
      have hnode : w[i]? = some w[i] := List.getElem?_eq_getElem hw
      have kind : w.kind? i = some w[i].kind := by rw [World.kind?, hnode, Option.map_some]
      simp only [getStatus, hnode, Option.bind_eq_bind, Option.bind_some] at got
      split_ifs at got
      · obtain ⟨refreshedStatus, next, refreshes, refreshed, -⟩ := refresh_spec now hnode
          fun w' h s hs => by
            have below := layered i _ kind s hs
            exact getStatus_spec now (h.layered layered) (by omega : s < fuel)
              (by rw [h.length]; omega)
        rw [refreshes, Option.bind_some] at got
        cases got
        rw [World.setStatus, World.battery_setBattery,
          if_pos ⟨rfl, World.isSome_kind?.mpr (hw.trans_eq refreshed.length.symm)⟩]
      · cases got
        rw [World.battery, hnode]
        rfl

theorem PartitionArgs.partitionBatteries_status (args : PartitionArgs) (status : BatteryStatus)
    (sequenceNumber : ℕ) (entries : List (String × ℤ × RefreshMode)) :
    (args.partitionBatteries status sequenceNumber entries).1.map Battery.status =
      (entries.map Prod.fst).map (args.initBatteryStatus status) := by
  induction entries generalizing sequenceNumber with
  | nil => rfl
  | cons entry rest ih =>
      obtain ⟨name, maxStaleness, refreshMode⟩ := entry
      simp only [PartitionArgs.partitionBatteries]
      split_ifs
      · rw [List.map_cons, List.map_cons, List.map_cons, ih]
      · rw [List.map_cons, List.map_cons, List.map_cons, ih]

theorem PartitionArgs.getD_idxOf (args : PartitionArgs) (nodup : args.names.Nodup)
    (length : args.names.length = args.childProportions.length) {k : ℕ}
    (hk : k < args.names.length) :
    args.childProportions.getD (args.names.idxOf args.names[k]) ⟨0, 0⟩ =
      args.childProportions[k] := by
  rw [nodup.idxOf_getElem k hk, List.getD_eq_getElem _ _ (hk.trans_eq length)]

namespace BatteryDirectoryManager

variable {m m' : BatteryDirectoryManager} {args : PartitionArgs} {children : List ℕ}

theorem refusesPartition_whole (accepted : m.refusesPartition args = false) :
    (args.childProportions.map Scale.chargeProportion).sum = 1 ∧
      (args.childProportions.map Scale.capacityProportion).sum = 1 ∧
      args.names.length = args.childProportions.length := by
  simp only [refusesPartition, Bool.or_eq_false_iff, Bool.not_eq_false', decide_eq_false_iff_not,
    ne_eq, not_not] at accepted
  obtain ⟨⟨⟨⟨charge, capacity⟩, sizes⟩, -⟩, -⟩ := accepted
  simp only [Bool.and_eq_true, decide_eq_true_eq] at sizes
  exact ⟨charge, capacity, sizes.1.1⟩

structure PartitionCreated (m m' : BatteryDirectoryManager) (args : PartitionArgs)
    (source : ℕ) (status : BatteryStatus) (children : List ℕ) : Prop where
  accepted : m.refusesPartition args = false
  nodup : args.names.Nodup
  places : children = List.range' (m.world.length + 1) args.names.length
  stored : m.getBattery args.sourceName = some source
  reported : (m'.world.battery source).status = status
  manager : m'.world.kind? m.world.length =
    some (.partitionManager args.policyType source children args.childProportions)
  child : ∀ k, (hk : k < args.names.length) →
    (m'.world.battery (m.world.length + 1 + k)).status =
      args.initBatteryStatus status args.names[k]
  length : m.world.length + 1 + args.names.length ≤ m'.world.length
  sound : m'.Sound

theorem createPartitionBattery_created (h : m.Sound)
    (create : m.createPartitionBattery args = some (children, m')) (ne : children ≠ []) :
    ∃ source status, PartitionCreated m m' args source status children := by
  rcases createPartitionBattery_cases h args with
    ⟨-, idle⟩ | ⟨-, -, exits⟩ | ⟨accepted, added, next, kept, made, partition, -, free⟩
  · rw [idle] at create
    cases create
    exact absurd rfl ne
  · rw [exits] at create
    cases create
  cases added with
  | false =>
      rw [made] at create
      cases create
      exact absurd rfl ne
  | true =>
      obtain ⟨source, stored, -, manager⟩ := partition.source
      obtain ⟨lengths, -⟩ := partition_accepted accepted
      have bound : source < m.world.length := (h.registered _ _ stored).1
      obtain ⟨status, w, got, refreshed, -⟩ := getStatus_spec args.now h.layered
        (bound.trans (Nat.lt_add_one _)) bound
      obtain ⟨node, batteries, statuses, world⟩ : ∃ (node : Node) (batteries : List Battery),
          batteries.map Battery.status = args.names.map (args.initBatteryStatus status) ∧
          next.world = w ++ node :: batteries.map fun b => ⟨b, .partition w.length⟩ := by
        have statuses := args.partitionBatteries_status status (m.sequenceNumber + 1)
          (args.names.zip (args.maxStalenesses.zip args.refreshModes))
        simp only [createPartitionBattery, accepted, stored, got, Bool.false_eq_true, if_false,
          Option.bind_eq_bind, Option.bind_some, Option.bind_eq_some_iff] at made
        obtain ⟨d, -, made⟩ := made
        simp only [Option.pure_def, Option.some.injEq, Prod.mk.injEq] at made
        rw [← made.2]
        refine ⟨_, _, ?_, rfl⟩
        rw [statuses, List.map_fst_zip lengths.le]
      have count : batteries.length = args.names.length := by
        rw [← List.length_map, statuses, List.length_map]
      rw [made, if_pos rfl] at create
      cases create
      refine ⟨source, status, accepted, (free.mp rfl).1, rfl, stored, ?_, manager, fun k hk => ?_,
        ?_, partition.sound⟩
      · rw [world, World.battery_append_left _ (bound.trans_eq refreshed.length.symm)]
        exact getStatus_stored got h.layered (bound.trans (Nat.lt_add_one _)) bound
      · have here : k < batteries.length := hk.trans_eq count.symm
        rw [world, ← refreshed.length, add_assoc, World.battery_append_right, add_comm 1 k]
        have node : (node :: batteries.map fun b => ⟨b, .partition w.length⟩ : World)[k + 1]? =
            some ⟨batteries[k], .partition w.length⟩ := by simp [here]
        rw [World.battery, node, Option.map_some, Option.getD_some]
        have same := congrArg (fun statuses => statuses[k]?) statuses
        simpa [here, hk] using same
      · rw [world, ← refreshed.length]
        simp only [List.length_append, List.length_cons, List.length_map, count]
        omega

theorem PartitionCreated.shares {source : ℕ} {status : BatteryStatus}
    (h : PartitionCreated m m' args source status children) {field : BatteryStatus → ℚ}
    {proportion : Scale → ℚ}
    (init : ∀ name, field (args.initBatteryStatus status name) = field status *
      proportion (args.childProportions.getD (args.names.idxOf name) ⟨0, 0⟩))
    (whole : (args.childProportions.map proportion).sum = 1) :
    Shares field proportion status args.childProportions m'.world children := by
  have length := (refusesPartition_whole h.accepted).2.2
  have own : List.Forall₂ (fun child scale =>
      field (m'.world.battery child).status = field status * proportion scale) children
        args.childProportions := by
    rw [List.forall₂_iff_get, h.places]
    refine ⟨List.length_range'.trans length, fun k hk hk' => ?_⟩
    have named : k < args.names.length := hk.trans_eq List.length_range'
    rw [List.get_eq_getElem, List.get_eq_getElem, List.getElem_range', one_mul, h.child k named,
      init, args.getD_idxOf h.nodup length named]
  exact ⟨own, Proportion.sum_split own whole⟩

theorem exec_grows (h : m.Sound) {calls : List Call} (run : m.exec calls = some m') :
    m'.Sound ∧ World.Grows m.world m'.world := by
  refine StepRun.exec_kept (Q := fun next => next.Sound ∧ World.Grows m.world next.world)
    ⟨h, .refl _⟩ (fun s call s' kept hstep => ?_) run
  obtain ⟨sound, grows⟩ := kept
  refine ⟨step_sound sound hstep, ?_⟩
  cases step_cases sound hstep with
  | idles idles => exact grows.trans idles.grows
  | physical made => exact grows.trans made.grows
  | aggregate made => exact grows.trans made.grows
  | partition _ made => exact grows.trans made.grows
  | removal _ world => rwa [world]

/-- The children share what their source has: as the call that created them leaves it, and the
limits again as the source reports them to any later refresh of the manager. -/
structure Conserved (m m' : BatteryDirectoryManager) (args : PartitionArgs) (source : ℕ)
    (children : List ℕ) : Prop where
  capacity : Shares BatteryStatus.capacityMAh Scale.capacityProportion
    (m'.world.battery source).status args.childProportions m'.world children
  maxCapacity : Shares BatteryStatus.maxCapacityMAh Scale.capacityProportion
    (m'.world.battery source).status args.childProportions m'.world children
  maxChargingCurrent : Shares BatteryStatus.maxChargingCurrentMA Scale.chargeProportion
    (m'.world.battery source).status args.childProportions m'.world children
  maxDischargingCurrent : Shares BatteryStatus.maxDischargingCurrentMA Scale.chargeProportion
    (m'.world.battery source).status args.childProportions m'.world children
  refreshed : ∀ later m'', m'.exec later = some m'' → ∀ now fuel, m''.world.length ≤ fuel →
    ∃ node pStatus w managerStatus w', m''.world[m.world.length]? = some node ∧
      getStatus now fuel m''.world source = some (pStatus, w) ∧
      refresh (getStatus now fuel) now m''.world node = some (managerStatus, w') ∧
      Shares BatteryStatus.maxChargingCurrentMA Scale.chargeProportion pStatus
        args.childProportions w' children ∧
      Shares BatteryStatus.maxDischargingCurrentMA Scale.chargeProportion pStatus
        args.childProportions w' children

/-- A proportional partition that was created divides what its source has, and divides the limits
again at every later refresh, whatever has become of the source. -/
theorem partition_conserves {calls : List Call} (run : empty.exec calls = some m)
    (proportional : args.policyType = .proportional)
    (create : m.createPartitionBattery args = some (children, m')) (success : children ≠ []) :
    ∃ source, m.getBattery args.sourceName = some source ∧ Conserved m m' args source children := by
  obtain ⟨source, status, created⟩ := createPartitionBattery_created (exec_sound run) create success
  obtain ⟨charge, capacity, length⟩ := refusesPartition_whole created.accepted
  have bound : source < m.world.length := ((exec_sound run).registered _ _ created.stored).1
  obtain rfl := created.reported
  refine ⟨source, created.stored, created.shares (fun _ => rfl) capacity,
    created.shares (fun _ => rfl) capacity, created.shares (fun _ => rfl) charge,
    created.shares (fun _ => rfl) charge, fun later m'' run' now fuel enough => ?_⟩
  obtain ⟨sound, grows⟩ := exec_grows created.sound run'
  have room : m.world.length + 1 + args.names.length ≤ m''.world.length :=
    created.length.trans grows.length
  have kind := (grows.kind m.world.length (by have := created.length; omega)).trans created.manager
  obtain ⟨pStatus, w, got, refreshed, -⟩ := getStatus_spec now sound.layered
    (by omega : source < fuel) (by omega)
  have manager : refresh (getStatus now fuel) now m''.world ⟨m''.world.battery m.world.length,
      .partitionManager args.policyType source children args.childProportions⟩ =
      some ({ (m''.world.battery m.world.length).status with time := now },
        refreshProportional pStatus w children args.childProportions) := by
    simp only [refresh, got, proportional, if_true, Option.bind_eq_bind, Option.bind_some,
      Option.pure_def]
  refine ⟨_, pStatus, w, _, _, World.getElem?_of_kind kind, got, manager,
    refreshProportional_shares pStatus ?_ ?_ ?_ charge⟩
  · rw [created.places]
    exact List.nodup_range'
  · intro child hc
    rw [created.places, List.mem_range'_1] at hc
    rw [refreshed.length]
    omega
  · rw [created.places, List.length_range', length]

def quarterOf (sourceName : String) : PartitionArgs where
  now := 0
  sourceName := sourceName
  policyType := .proportional
  names := ["a", "b"]
  childProportions := [⟨1/4, 1/2⟩, ⟨3/4, 1/2⟩]
  maxStalenesses := [1000, 1000]
  refreshModes := [.lazy, .active]

theorem partition_conserves_quarter :
    ∃ m m', empty.exec [.createPhysicalBattery "p" 1000 .active,
        .update 0 { Battery.new "p" 1000 .active with status := .halfFull }] = some m ∧
      m.createPartitionBattery (quarterOf "p") = some ([2, 3], m') ∧
      ∃ source, m.getBattery "p" = some source ∧
        Conserved m m' (quarterOf "p") source [2, 3] := by
  obtain ⟨m, run, rest⟩ := Option.bind_eq_some_iff.mp (show
    (empty.exec [.createPhysicalBattery "p" 1000 .active,
        .update 0 { Battery.new "p" 1000 .active with status := .halfFull }]).bind
      (fun m => (m.createPartitionBattery (quarterOf "p")).map Prod.fst) = some [2, 3] by
        decide +kernel)
  obtain ⟨⟨children, m'⟩, create, rfl⟩ := Option.map_eq_some_iff.mp rest
  exact ⟨m, m', run, create, partition_conserves run rfl create (by simp)⟩

end BatteryDirectoryManager

end BatteryOS.V3
