import BatteryOS.V3.Manager

/-! Exclusive use of a source. `canBeSource` asks whether a battery has a consumer yet, for each
parent of an aggregate before the first edge is there. A parent that one call lists twice passes
twice; in every other case a battery that is not a partition manager has one consumer at most. -/

namespace BatteryOS.V3

def Kind.isPartitionManager : Kind → Bool
  | .partitionManager _ _ _ _ => true
  | .physical | .aggregate _ | .partition _ => false

namespace BatteryDirectoryManager

variable {m m' : BatteryDirectoryManager} {call : Call} {calls : List Call}

/-- Every battery other than a partition manager has at most one edge out of it. -/
def Exclusive (m : BatteryDirectoryManager) : Prop :=
  ∀ p i, m.getBattery p = some i → (m.world.kind? i).any Kind.isPartitionManager = false →
    (m.directory.children p).length ≤ 1

/-- The call is not one of `createAggregateBattery` that goes through and lists a battery other
than a partition manager twice. -/
def ListsOnce (m : BatteryDirectoryManager) : Call → Prop
  | .createAggregateBattery _ name parentNames _ _ =>
    m.refusesAggregate name parentNames = false → ∀ p ∈ parentNames, ∀ i,
      m.getBattery p = some i → (m.world.kind? i).any Kind.isPartitionManager = false →
        parentNames.count p = 1
  | .createPhysicalBattery _ _ _ | .createPartitionBattery _ | .removeBattery _
  | .update _ _ => True

theorem exclusive_empty : empty.Exclusive := fun p i stored => by cases stored

theorem kind?_of_grows (sound : m.Sound) (grows : World.Grows m.world m'.world) {p : String}
    {i : ℕ} (stored : m.getBattery p = some i) : m'.world.kind? i = m.world.kind? i :=
  grows.kind i (sound.registered p i stored).1

theorem Exclusive.idles (h : m.Exclusive) (sound : m.Sound) (idles : Idles m m') :
    m'.Exclusive := by
  intro p i stored kind
  have stored' : m.getBattery p = some i := by rwa [getBattery, idles.directory] at stored
  rw [idles.directory]
  rw [kind?_of_grows sound idles.grows stored'] at kind
  exact h p i stored' kind

theorem Exclusive.physical (h : m.Exclusive) (sound : m.Sound) {name : String}
    (made : BatteryMade m m' name) (same : m'.directory.children = m.directory.children) :
    m'.Exclusive := by
  intro p i stored kind
  rw [same]
  rcases (made.battery p i).mp stored with stored | ⟨rfl, -⟩
  · rw [kind?_of_grows sound made.grows stored] at kind
    exact h p i stored kind
  · rw [Fits.children_of_none sound made.fresh]
    exact Nat.zero_le 1

theorem Exclusive.aggregate (h : m.Exclusive) (sound : m.Sound) {name : String}
    {parentNames : List String} (made : AggregateMade m m' name parentNames)
    (once : ∀ p ∈ parentNames, ∀ i, m.getBattery p = some i →
      (m.world.kind? i).any Kind.isPartitionManager = false → parentNames.count p = 1) :
    m'.Exclusive := by
  intro p i stored kind
  rw [made.children, List.length_append, List.length_replicate]
  rcases (made.battery p i).mp stored with stored | ⟨rfl, -⟩
  · rw [kind?_of_grows sound made.grows stored] at kind
    by_cases parent : p ∈ parentNames
    · obtain ⟨-, -, free⟩ := made.sources p parent
      rw [free, once p parent i stored kind]
      exact le_rfl
    · rw [List.count_eq_zero.mpr parent]
      exact h p i stored kind
  · have absent : p ∉ parentNames := by
      intro parent
      obtain ⟨k, found, -⟩ := made.sources p parent
      rw [made.fresh] at found
      cases found
    rw [Fits.children_of_none sound made.fresh, List.count_eq_zero.mpr absent]
    exact Nat.zero_le 1

theorem Exclusive.partition (h : m.Exclusive) (sound : m.Sound) {args : PartitionArgs}
    {kept : List (String × ℕ)} (made : PartitionMade m m' args kept) : m'.Exclusive := by
  intro p i stored kind
  obtain ⟨source, -, -, managerKind⟩ := made.source
  rw [made.children]
  rcases (made.battery p i).mp stored with stored | stored
  · rw [kind?_of_grows sound made.grows stored] at kind
    have other : p ≠ m.createPartitionManagerName := by
      rintro rfl
      rw [made.managerFresh] at stored
      cases stored
    rw [if_neg other]
    split_ifs
    · exact le_rfl
    · exact h p i stored kind
  · rcases List.mem_cons.mp stored with same | child
    · obtain ⟨rfl, rfl⟩ := Prod.mk_inj.mp same
      rw [managerKind] at kind
      cases kind
    · obtain ⟨fresh, other⟩ := made.keptFresh _ child
      rw [if_neg other]
      split_ifs
      · exact le_rfl
      · rw [Fits.children_of_none sound fresh]
        exact Nat.zero_le 1

theorem Exclusive.removal (h : m.Exclusive) (sound : m.Sound) (sound' : m'.Sound)
    (shrunk : BatteryDirectory.Shrunk m.directory m'.directory) (world : m'.world = m.world) :
    m'.Exclusive := by
  intro p i stored kind
  rw [world] at kind
  refine (List.Subperm.length_le ?_).trans (h p i (shrunk.battery p i stored) kind)
  refine List.subperm_ext_iff.mpr fun c edge => ?_
  obtain ⟨-, j, -, registered, -⟩ := sound'.directory.later p c edge
  exact (shrunk.count_children sound.directory sound'.directory registered p).le

theorem Exclusive.step (h : m.Exclusive) (sound : m.Sound) (once : m.ListsOnce call)
    (run : m.step call = some m') : m'.Exclusive := by
  cases step_cases sound run with
  | idles idles => exact h.idles sound idles
  | physical made _ children => exact h.physical sound made children
  | aggregate made accepted => exact h.aggregate sound made (once accepted)
  | partition _ made => exact h.partition sound made
  | removal _ world shrunk sound' => exact h.removal sound sound' shrunk world

theorem listsOnce_of_exclusive (sound : m.Sound)
    (after : ∀ m', m.step call = some m' → m'.Exclusive) : m.ListsOnce call := by
  cases call with
  | createAggregateBattery now name parentNames maxStaleness refreshMode =>
      intro accepted p parent i stored kind
      rcases createAggregateBattery_cases sound now name parentNames maxStaleness refreshMode with
        ⟨-, refused⟩ | ⟨made, -⟩
      · rw [refused] at accepted
        cases accepted
      · have exclusive := after _ rfl p i ((made.battery p i).mpr (.inl stored))
          (by rwa [kind?_of_grows sound made.grows stored])
        rw [made.children, List.length_append, List.length_replicate] at exclusive
        have := List.count_pos_iff.mpr parent
        omega
  | createPhysicalBattery name maxStaleness refreshMode => trivial
  | createPartitionBattery args => trivial
  | removeBattery name => trivial
  | update battery content => trivial

/-- In the runs in which no call lists a battery twice, and in no others, every state has
exclusive sources. -/
theorem exec_exclusive_iff (calls : List Call) :
    (∀ before, before <+: calls → ∀ m, empty.exec before = some m → m.Exclusive) ↔
      Along ListsOnce calls :=
  StepRun.always_iff_along sound_empty (fun _ _ _ sound step => step_sound sound step)
    exclusive_empty (fun _ _ _ sound h once step => h.step sound once step)
    fun _ _ sound _ after => listsOnce_of_exclusive sound after

/-- A battery listed twice counts twice. -/
theorem repeated_parent_counts_twice :
    ∃ m, empty.exec [.createPhysicalBattery "p" 1000 .lazy,
        .createAggregateBattery 0 "g" ["p", "p"] 1000 .lazy] = some m ∧
      m.directory.children "p" = ["g", "g"] ∧ ¬ m.Exclusive := by
  obtain ⟨m, run, state⟩ := Option.map_eq_some_iff.mp (show
    (empty.exec [.createPhysicalBattery "p" 1000 .lazy,
      .createAggregateBattery 0 "g" ["p", "p"] 1000 .lazy]).map
      (fun m => (m.directory.children "p", m.getBattery "p", m.world.kind? 0)) =
    some (["g", "g"], some 0, some .physical) by decide +kernel)
  obtain ⟨children, stored, kind⟩ := by simpa only [Prod.mk_inj] using state
  refine ⟨m, run, children, fun exclusive => ?_⟩
  have := exclusive "p" 0 stored (by rw [kind]; rfl)
  rw [children] at this
  exact absurd this (by decide)

end BatteryDirectoryManager

end BatteryOS.V3
