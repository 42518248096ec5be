import BatteryOS.V3.AllOrNothing

/-! Removals are exact. While no aggregate lists a parent twice, the children of a battery are one
aggregate or manager, or partitions that stand on it alone. So no child of a battery is below
another one, no removal of a child takes the next with it, and the recursion takes the battery
and all that is below it, and nothing else. -/

namespace BatteryOS.V3

namespace BatteryDirectory

/-- The battery `root` and all that is below it are gone, and so are their edges; the rest is as
it was. -/
structure RemovedBelow (d d' : BatteryDirectory) (root : String) : Prop where
  removed : ∀ y, d.Reaches root y → d'.batteryMap.find? y = none
  kept : ∀ y, ¬ d.Reaches root y → d'.batteryMap.find? y = d.batteryMap.find? y
  keptParents : ∀ c, ¬ d.Reaches root c → d'.parents c = d.parents c
  keptEdges : ∀ p c, ¬ d.Reaches root p → ¬ d.Reaches root c →
    (d'.children p).count c = (d.children p).count c
  removedEdges : ∀ p c, d.Reaches root p ∨ d.Reaches root c → c ∉ d'.children p ∧ p ∉ d'.parents c
  freed : ∀ p, d.nameExists p = true → ¬ d.Reaches root p →
    (∀ c ∈ d.children p, d.Reaches root c) → d'.canBeSource p = true

variable {d d' : BatteryDirectory} {root : String}

theorem Shrunk.removedBelow (h : Shrunk d d') (sound : d.Sound) (sound' : d'.Sound)
    (gone : d'.batteryMap.find? root = none)
    (frame : ∀ y, ¬ d.Reaches root y → d'.batteryMap.find? y = d.batteryMap.find? y) :
    RemovedBelow d d' root := by
  have removed : ∀ y, d.Reaches root y → d'.batteryMap.find? y = none :=
    fun y => h.gone_of_reaches sound sound' gone
  have noEdge : ∀ p c, d.Reaches root p ∨ d.Reaches root c → c ∉ d'.children p := by
    intro p c below edge
    obtain ⟨i, j, hi, hj, -⟩ := sound'.later p c edge
    rcases below with below | below
    · rw [removed p below] at hi
      cases hi
    · rw [removed c below] at hj
      cases hj
  have unregistered : ∀ {e : BatteryDirectory}, e.Sound → ∀ c, e.batteryMap.find? c = none →
      e.parents c = [] := by
    intro e he c absent
    refine List.eq_nil_iff_forall_not_mem.mpr fun p edge => ?_
    obtain ⟨-, j, -, hj, -⟩ := he.later p c (he.mem_parents.mp edge)
    rw [absent] at hj
    cases hj
  have keptParents : ∀ c, ¬ d.Reaches root c → d'.parents c = d.parents c := by
    intro c far
    cases stored : d'.batteryMap.find? c with
    | some j => exact h.parents c j stored
    | none => rw [unregistered sound' c stored, unregistered sound c (frame c far ▸ stored)]
  refine ⟨removed, frame, keptParents, fun p c _ far => ?_, fun p c below => ?_,
    fun p registered far all => ?_⟩
  · have same : d'.childGraph.neighbours c = d.childGraph.neighbours c := keptParents c far
    exact (sound'.inverse p c).trans (same ▸ (sound.inverse p c).symm)
  · exact ⟨noEdge p c below, fun edge => noEdge p c below (sound'.mem_parents.mp edge)⟩
  · have last : d'.children p = [] :=
      h.children_eq_nil sound sound' fun c edge => removed c (all c edge)
    have free := sound'.parentGraph.find?_eq_none.mpr last
    rw [nameExists, ← frame p far] at registered
    rw [canBeSource, nameExists, registered, free]
    rfl

end BatteryDirectory

namespace BatteryDirectoryManager

def Call.DistinctParents : Call → Prop
  | .createAggregateBattery _ _ parentNames _ _ => parentNames.Nodup
  | .createPhysicalBattery _ _ _ | .createPartitionBattery _ | .removeBattery _
  | .update _ _ => True

def Family (m : BatteryDirectoryManager) (p : String) : Prop :=
  (∀ c ∈ m.directory.children p, ∀ c' ∈ m.directory.children p, c = c') ∨
    ∀ c ∈ m.directory.children p, m.directory.parents c = [p]

structure Tidy (m : BatteryDirectoryManager) : Prop where
  family : ∀ p, m.Family p
  once : m.ParentsOnce
  partition : ∀ name c i, m.getBattery name = some c → m.world.kind? c = some (.partition i) →
    m.Belongs name i

variable {m m' : BatteryDirectoryManager} {p name : String} {calls : List Call}

theorem family_of_nil (none : m.directory.children p = []) : m.Family p :=
  .inl fun c hc => by
    rw [none] at hc
    cases hc

theorem tidy_empty : empty.Tidy where
  family p := family_of_nil rfl
  once name := List.nodup_nil
  partition name c i stored := by cases stored

theorem Tidy.extend (h : m.Tidy) (ext : Extends m m') (sound : m.Sound) (sound' : m'.Sound)
    (newFamily : ∀ p, m.directory.children p = [] → m'.Family p)
    (newOnce : ∀ n, m.getBattery n = none → (m'.directory.parents n).Nodup)
    (newPartition : ∀ name c i, m'.getBattery name = some c → m.getBattery name = none →
      m'.world.kind? c = some (.partition i) → m'.Belongs name i) : m'.Tidy where
  family p := by
    by_cases none : m.directory.children p = []
    · exact newFamily p none
    · have before : ∀ {c}, c ∈ m'.directory.children p → c ∈ m.directory.children p :=
        ext.mem_children sound sound' none
      rcases h.family p with single | alone
      · exact .inl fun c hc c' hc' => single c (before hc) c' (before hc')
      · refine .inr fun c hc => ?_
        obtain ⟨-, j, -, stored, -⟩ := sound.directory.later p c (before hc)
        exact (ext.parents c j stored).trans (alone c (before hc))
  once n := by
    cases before : m.getBattery n with
    | none => exact newOnce n before
    | some k => exact (ext.parents n k before).symm ▸ h.once n
  partition name c i stored kind := by
    cases before : m.getBattery name with
    | none => exact newPartition name c i stored before kind
    | some k =>
        obtain rfl := Option.some.inj (stored.symm.trans (ext.battery name k before))
        rw [ext.kind_eq sound before] at kind
        exact (h.partition name c i before kind).extend ext sound before

theorem Tidy.idles (h : m.Tidy) (sound : m.Sound) (idles : Idles m m') : m'.Tidy := by
  refine h.extend idles.extends sound (idles.sound sound) (fun p none => ?_) (fun n none => ?_)
    fun name c i stored none => ?_
  · exact family_of_nil (by rw [idles.directory, none])
  · rw [idles.directory]
    exact h.once n
  · rw [getBattery, idles.directory] at stored
    rw [getBattery, stored] at none
    cases none

theorem Tidy.physical (h : m.Tidy) (sound : m.Sound) (made : BatteryMade m m' name)
    (kind : m'.world.kind? m.world.length = some .physical)
    (children : m'.directory.children = m.directory.children)
    (parents : m'.directory.parents = m.directory.parents) : m'.Tidy := by
  refine h.extend (made.extends sound children parents) sound made.sound (fun p none => ?_)
    (fun n _ => ?_) fun n c i stored none hkind => ?_
  · exact family_of_nil (by rw [children, none])
  · rw [parents]
    exact h.once n
  · rcases (made.battery n c).mp stored with before | ⟨-, rfl⟩
    · rw [none] at before
      cases before
    · rw [kind] at hkind
      cases hkind

theorem Tidy.aggregate (h : m.Tidy) (sound : m.Sound) {parentNames : List String}
    (made : AggregateMade m m' name parentNames) (distinct : parentNames.Nodup) : m'.Tidy := by
  refine h.extend made.extends sound made.sound (fun p none => .inl fun c hc c' hc' => ?_)
    (fun n _ => ?_) fun n c i stored none hkind => ?_
  · rw [made.children, none, List.nil_append] at hc hc'
    rw [List.eq_of_mem_replicate hc, List.eq_of_mem_replicate hc']
  · rw [made.parents]
    split_ifs
    · exact distinct
    · exact h.once n
  · obtain ⟨sources, kind⟩ := made.kind
    rcases (made.battery n c).mp stored with before | ⟨-, rfl⟩
    · rw [none] at before
      cases before
    · rw [kind] at hkind
      cases hkind

theorem Tidy.partitioned (h : m.Tidy) (sound : m.Sound) {args : PartitionArgs}
    {kept : List (String × ℕ)} (made : PartitionMade m m' args kept) : m'.Tidy := by
  obtain ⟨source, -, -, kind⟩ := made.source
  refine h.extend (made.extends sound) sound made.sound (fun p none => ?_) (fun n _ => ?_)
    fun n c i stored none hkind => ?_
  · by_cases manager : p = m.createPartitionManagerName
    · refine .inr fun c hc => ?_
      rw [made.children, if_pos manager] at hc
      rw [made.parents, if_pos hc, manager]
    · refine .inl fun c hc c' hc' => ?_
      rw [made.children, if_neg manager] at hc hc'
      split_ifs at hc hc'
      · rw [List.mem_singleton.mp hc, List.mem_singleton.mp hc']
      · rw [none] at hc
        cases hc
  · rw [made.parents]
    split_ifs
    · exact List.nodup_singleton _
    · exact List.nodup_singleton _
    · exact h.once n
  · rcases (made.battery n c).mp stored with before | member
    · rw [none] at before
      cases before
    rcases List.mem_cons.mp member with same | child
    · obtain ⟨rfl, rfl⟩ := Prod.mk_inj.mp same
      rw [kind] at hkind
      cases hkind
    · have partition := (made.child _ (made.isPrefix.subset child)).1
      obtain rfl := Kind.partition.inj (Option.some.inj (partition.symm.trans hkind))
      refine ⟨?_, ?_, ?_⟩
      · rw [made.parents, if_pos (List.mem_map_of_mem child)]
        exact congrArg (fun n => [n]) made.managerName.symm
      · rw [nameOf, made.managerName]
        exact (made.battery _ _).mpr (.inr List.mem_cons_self)
      · rw [kind]
        rfl

theorem Tidy.removal (h : m.Tidy) (sound : m.Sound) (sound' : m'.Sound)
    (shrunk : BatteryDirectory.Shrunk m.directory m'.directory) (world : m'.world = m.world) :
    m'.Tidy where
  family p := by
    have before : ∀ {c}, c ∈ m'.directory.children p → c ∈ m.directory.children p :=
      shrunk.mem_children sound.directory sound'.directory
    rcases h.family p with single | alone
    · exact .inl fun c hc c' hc' => single c (before hc) c' (before hc')
    · refine .inr fun c hc => ?_
      obtain ⟨-, j, -, stored, -⟩ := sound'.directory.later p c hc
      exact (shrunk.parents c j stored).trans (alone c (before hc))
  once n := by
    cases stored : m'.getBattery n with
    | none =>
        rw [Fits.parents_of_none sound' stored]
        exact List.nodup_nil
    | some k => exact (shrunk.parents n k stored).symm ▸ h.once n
  partition name c i stored kind := by
    rw [world] at kind
    have belongs := h.partition name c i (shrunk.battery name c stored) kind
    have same : m'.nameOf i = m.nameOf i := by rw [nameOf, world, nameOf]
    have above : m'.directory.parents name = [m'.nameOf i] := by
      rw [same]
      exact (shrunk.parents name c stored).trans belongs.parents
    refine ⟨above, ?_, ?_⟩
    · obtain ⟨j, -, hj, -⟩ := sound'.directory.later (m'.nameOf i) name
        (sound'.directory.mem_parents.mp (by rw [above]; exact List.mem_singleton_self _))
      have before := shrunk.battery _ j hj
      rw [same] at before
      obtain rfl := Option.some.inj (before.symm.trans belongs.registered)
      exact hj
    · rw [world]
      exact belongs.kind

theorem Tidy.step (h : m.Tidy) (sound : m.Sound) {call : Call} (distinct : call.DistinctParents)
    (run : m.step call = some m') : m'.Tidy := by
  cases step_cases sound run with
  | idles idles => exact h.idles sound idles
  | physical made kind children parents => exact h.physical sound made kind children parents
  | aggregate made => exact h.aggregate sound made distinct
  | partition _ made => exact h.partitioned sound made
  | removal _ world shrunk sound' => exact h.removal sound sound' shrunk world

theorem exec_tidy (run : empty.exec calls = some m)
    (distinct : ∀ call ∈ calls, call.DistinctParents) : m.Tidy :=
  exec_along (P := fun _ call => call.DistinctParents) tidy_empty
    (fun _ _ _ sound h distinct step => h.step sound distinct step)
    (StepRun.along_of_forall distinct) run

theorem Tidy.apart (h : m.Tidy) (sound : m.Sound) : m.directory.Apart where
  nodup p := by
    refine List.nodup_iff_count_le_one.mpr fun c => ?_
    exact (sound.directory.inverse p c).le.trans (List.nodup_iff_count_le_one.mp (h.once c) p)
  apart p a ha b hb ne path := by
    rcases h.family p with single | alone
    · exact ne (single a ha b hb)
    rcases Relation.ReflTransGen.cases_tail path with same | ⟨q, before, last⟩
    · exact ne same.symm
    · -- the only way to a child that stands on its parent alone is through the parent
      have parent := sound.directory.mem_parents.mpr last
      rw [alone b hb, List.mem_singleton] at parent
      subst parent
      exact sound.directory.wellFormed.acyclic q (Relation.TransGen.head' ha before)

/-- The root of a removal: of a partition its manager, and otherwise the battery itself. -/
def Root (m : BatteryDirectoryManager) (name root : String) (battery : ℕ) : Prop :=
  (∀ i, m.world.kind? battery = some (.partition i) →
    m.getBattery root = some i ∧ m.directory.parents name = [root]) ∧
  ((∀ i, m.world.kind? battery ≠ some (.partition i)) → root = name)

theorem Tidy.root (h : m.Tidy) {battery : ℕ} (stored : m.getBattery name = some battery) :
    m.Root name (m.removalTarget name battery) battery ∧
      ∃ k, m.getBattery (m.removalTarget name battery) = some k := by
  unfold Root removalTarget
  split
  · next i hkind =>
      have belongs := h.partition name battery i stored hkind
      refine ⟨⟨fun j kind => ?_, fun other => absurd rfl (hkind ▸ other i)⟩, i, belongs.registered⟩
      obtain rfl := Kind.partition.inj (Option.some.inj (hkind.symm.trans kind))
      exact ⟨belongs.registered, belongs.parents⟩
  all_goals
    next hkind =>
      refine ⟨⟨fun i kind => ?_, fun _ => rfl⟩, battery, stored⟩
      rw [hkind] at kind
      cases kind

/-- A removal returns, with `true` exactly for a name that is registered; it then takes the root
and what is below it, and otherwise nothing. -/
def RemovesExactly (m : BatteryDirectoryManager) (unset : BatteryType) (name : String) : Prop :=
  ∃ removed d', m.removeBatteryReading unset name = some (removed, { m with directory := d' }) ∧
    (removed = true ↔ ∃ battery, m.getBattery name = some battery) ∧
    (removed = false → d' = m.directory) ∧
    ∀ battery, m.getBattery name = some battery → ∃ root, m.Root name root battery ∧
      BatteryDirectory.RemovedBelow m.directory d' root

/-- The name is that of a battery whose type is not set, and is read as that of a partition. -/
def ReadAsPartition (m : BatteryDirectoryManager) (unset : BatteryType) (name : String) : Prop :=
  ∃ battery, m.getBattery name = some battery ∧ m.world.kind? battery = some .physical ∧
    unset = .partition

variable {unset : BatteryType}

theorem Sound.registered_kind (h : m.Sound) {battery : ℕ} (stored : m.getBattery name = some battery) :
    ∃ kind, m.world.kind? battery = some kind :=
  Option.isSome_iff_exists.mp (World.isSome_kind?.mpr (h.registered name battery stored).1)

/-- A battery that is no partition has no source to be removed in its place. -/
theorem removeBatteryReading_eq_none (misread : m.ReadAsPartition unset name) :
    m.removeBatteryReading unset name = none := by
  obtain ⟨battery, stored, kind, rfl⟩ := misread
  simp [removeBatteryReading, targetReading, stored, World.getBatteryType, World.getSourceName, kind]

theorem removeBatteryReading_eq (sound : m.Sound) (well : ¬ m.ReadAsPartition unset name) :
    m.removeBatteryReading unset name = m.removeBattery name := by
  unfold removeBatteryReading removeBattery
  cases stored : m.getBattery name with
  | none => rfl
  | some battery =>
      have target : m.targetReading unset name battery = some (m.removalTarget name battery) := by
        obtain ⟨kind, hkind⟩ := sound.registered_kind stored
        unfold targetReading World.getBatteryType World.getSourceName removalTarget
        cases kind with
        | physical =>
            simp only [hkind]
            exact if_neg fun misread => well ⟨battery, stored, hkind, misread⟩
        | aggregate sources => simp [hkind]
        | partition source => simp [hkind]
        | partitionManager policyType source children childProportions => simp [hkind]
      simp only [target, Option.bind_eq_bind, Option.bind_some, Option.pure_def]
      exact Option.map_eq_bind.symm

/-- The calls, with what each removal reads as a type that is not set. -/
def stepReading (m : BatteryDirectoryManager) : Call × BatteryType → Option BatteryDirectoryManager
  | (.removeBattery name, unset) => (m.removeBatteryReading unset name).map Prod.snd
  | (call, _) => m.step call

theorem step_of_stepReading {call : Call × BatteryType} (sound : m.Sound)
    (step : m.stepReading call = some m') : m.step call.1 = some m' := by
  obtain ⟨call, unset⟩ := call
  cases call with
  | removeBattery name =>
      by_cases misread : m.ReadAsPartition unset name
      · rw [stepReading, removeBatteryReading_eq_none misread] at step
        cases step
      · rwa [stepReading, removeBatteryReading_eq sound misread] at step
  | createPhysicalBattery name maxStaleness refreshMode => exact step
  | createAggregateBattery now name parentNames maxStaleness refreshMode => exact step
  | createPartitionBattery args => exact step
  | update battery content => exact step

theorem exec_of_readings {readings : List (Call × BatteryType)}
    (run : StepRun.exec stepReading empty readings = some m) :
    empty.exec (readings.map Prod.fst) = some m := by
  induction readings using List.reverseRecOn generalizing m with
  | nil => exact run
  | append_singleton before call ih =>
      rw [StepRun.exec_concat] at run
      obtain ⟨between, first, last⟩ := Option.bind_eq_some_iff.mp run
      have next := step_of_stepReading (exec_sound (ih first)) last
      rw [List.map_append]
      exact StepRun.exec_concat.trans (Option.bind_eq_some_iff.mpr ⟨between, ih first, next⟩)

theorem removes_of_tidy (sound : m.Sound) (tidy : m.Tidy)
    (well : ¬ m.ReadAsPartition unset name) : m.RemovesExactly unset name := by
  unfold RemovesExactly
  rw [removeBatteryReading_eq sound well]
  unfold removeBattery
  cases stored : m.getBattery name with
  | none => exact ⟨false, m.directory, rfl, by simp, fun _ => rfl, (fun battery h => by cases h)⟩
  | some battery =>
      obtain ⟨root, k, target⟩ := tidy.root stored
      obtain ⟨d', clear, shrunk, sound', gone, frame⟩ := BatteryDirectory.removeBattery_clears
        (m.world.length + 1) (m.removalTarget name battery) sound.directory (tidy.apart sound)
        (fun other i hi => (sound.registered other i hi).1) target (by omega)
      refine ⟨true, d', by simp only [clear, Option.map_some], by simp, (fun h => by cases h),
        fun other h => ?_⟩
      obtain rfl := Option.some.inj h
      exact ⟨_, root, shrunk.removedBelow sound.directory sound' gone frame⟩

/-- Removals are exact but of a battery whose type is not set and is read as that of a partition. -/
theorem removal_exact_iff {readings : List (Call × BatteryType)}
    (run : StepRun.exec stepReading empty readings = some m)
    (distinct : ∀ call ∈ readings.map Prod.fst, call.DistinctParents) (unset : BatteryType)
    (name : String) : m.RemovesExactly unset name ↔ ¬ m.ReadAsPartition unset name := by
  have run' := exec_of_readings run
  constructor
  · rintro ⟨removed, d', removal, -⟩ misread
    rw [removeBatteryReading_eq_none misread] at removal
    cases removal
  · exact removes_of_tidy (exec_sound run') (exec_tidy run' distinct)

/-- A half of a diamond is removed: the manager goes, with both halves and the aggregate. -/
theorem removal_exact_diamond :
    ∃ m, StepRun.exec stepReading empty [(.createPhysicalBattery "p" 1000 .lazy, .physical),
        (.createPartitionBattery (halvesOf "p" ["a", "b"]), .physical),
        (.createAggregateBattery 0 "g" ["a", "b"] 1000 .lazy, .physical)] = some m ∧
      m.RemovesExactly .partition "a" := by
  obtain ⟨m, run⟩ := Option.isSome_iff_exists.mp (show
    (StepRun.exec stepReading empty [(.createPhysicalBattery "p" 1000 .lazy, .physical),
      (.createPartitionBattery (halvesOf "p" ["a", "b"]), .physical),
      (.createAggregateBattery 0 "g" ["a", "b"] 1000 .lazy, .physical)]).isSome = true by
        decide +kernel)
  have kind : (m.getBattery "a").bind m.world.kind? = some (.partition 1) := by
    have all : ((StepRun.exec stepReading empty [(.createPhysicalBattery "p" 1000 .lazy, .physical),
        (.createPartitionBattery (halvesOf "p" ["a", "b"]), .physical),
        (.createAggregateBattery 0 "g" ["a", "b"] 1000 .lazy, .physical)]).bind fun m =>
          (m.getBattery "a").bind m.world.kind?) = some (.partition 1) := by decide +kernel
    rwa [run] at all
  refine ⟨m, run, (removal_exact_iff run (fun call member => ?_) .partition "a").mpr ?_⟩
  · simp only [List.map_cons, List.map_nil, List.mem_cons, List.not_mem_nil, or_false] at member
    rcases member with rfl | rfl | rfl
    · trivial
    · trivial
    · exact show ["a", "b"].Nodup by decide
  · rintro ⟨battery, stored, physical, -⟩
    rw [stored, Option.bind_some, physical] at kind
    cases kind

def madeAfterRemoval : List (Call × BatteryType) :=
  [(.createPhysicalBattery "p" 1000 .lazy, .physical),
    (.createPartitionBattery (halvesOf "p" ["a", "b"]), .physical),
    (.removeBattery "a", .physical), (.createPhysicalBattery "d" 1000 .lazy, .physical)]

/-- What is left in memory of the partition is read as the type of the new battery. -/
theorem removal_of_untyped :
    ∃ m, StepRun.exec stepReading empty madeAfterRemoval = some m ∧
      ¬ m.RemovesExactly .partition "d" := by
  obtain ⟨m, run⟩ := Option.isSome_iff_exists.mp (show
    (StepRun.exec stepReading empty madeAfterRemoval).isSome = true by decide +kernel)
  refine ⟨m, run, ?_⟩
  rintro ⟨removed, d', removal, -⟩
  have returns : ((StepRun.exec stepReading empty madeAfterRemoval).bind fun m =>
      m.removeBatteryReading .partition "d").isSome = false := by decide +kernel
  rw [run, Option.bind_some, removal] at returns
  cases returns

end BatteryDirectoryManager

end BatteryOS.V3
