import BatteryOS.V3.Exclusive

/-! The partitions of a directory. `createPartitionBattery` registers the manager and its edge
before it looks at the names of the children, so a name that is taken leaves a part of the
partition behind. While every call finds its names free, and no battery lists a parent twice when
one is removed, each registered manager has all of its children registered. -/

namespace BatteryOS.V3

namespace BatteryDirectory

variable {d d' : BatteryDirectory} {x y : String}

theorem Shrunk.gone_of_reaches (h : Shrunk d d') (sound : d.Sound) (sound' : d'.Sound)
    (gone : d'.batteryMap.find? x = none) (path : d.Reaches x y) :
    d'.batteryMap.find? y = none := by
  induction path with
  | refl => exact gone
  | @tail p c _ edge ih =>
      refine Option.eq_none_iff_forall_ne_some.mpr fun j stored => ?_
      have parent : p ∈ d'.parents c := by
        rw [h.parents c j stored]
        exact sound.mem_parents.mpr edge
      obtain ⟨i, -, hi, -⟩ := sound'.later p c (sound'.mem_parents.mp parent)
      rw [ih] at hi
      cases hi

end BatteryDirectory

namespace BatteryDirectoryManager

def nameOf (m : BatteryDirectoryManager) (battery : ℕ) : String :=
  (m.world.battery battery).batteryName

structure Manages (m : BatteryDirectoryManager) (name : String) (manager : ℕ)
    (children : List ℕ) : Prop where
  nonempty : children ≠ []
  registered : ∀ c ∈ children, m.getBattery (m.nameOf c) = some c
  kind : ∀ c ∈ children, m.world.kind? c = some (.partition manager)
  parents : ∀ c ∈ children, m.directory.parents (m.nameOf c) = [name]
  children : ∀ x ∈ m.directory.children name, ∃ c ∈ children, m.nameOf c = x

structure Belongs (m : BatteryDirectoryManager) (name : String) (manager : ℕ) : Prop where
  parents : m.directory.parents name = [m.nameOf manager]
  registered : m.getBattery (m.nameOf manager) = some manager
  kind : (m.world.kind? manager).any Kind.isPartitionManager = true

structure Arranged (m : BatteryDirectoryManager) : Prop where
  single : ∀ p i, m.getBattery p = some i →
    (m.world.kind? i).any Kind.isPartitionManager = false →
      ∀ c ∈ m.directory.children p, ∀ c' ∈ m.directory.children p, c = c'
  manager : ∀ p i policyType source children childProportions, m.getBattery p = some i →
    m.world.kind? i = some (.partitionManager policyType source children childProportions) →
      m.Manages p i children
  partition : ∀ name c i, m.getBattery name = some c → m.world.kind? c = some (.partition i) →
    m.Belongs name i

variable {m m' : BatteryDirectoryManager} {p name : String} {i c : ℕ} {ids : List ℕ}

theorem exists_of_isPartitionManager (h : (m.world.kind? i).any Kind.isPartitionManager = true) :
    ∃ policyType source children childProportions, m.world.kind? i =
      some (.partitionManager policyType source children childProportions) := by
  cases hkind : m.world.kind? i with
  | none =>
      rw [hkind] at h
      cases h
  | some kind =>
      rw [hkind] at h
      cases kind with
      | partitionManager policyType source children childProportions =>
          exact ⟨policyType, source, children, childProportions, rfl⟩
      | physical => cases h
      | aggregate parents => cases h
      | partition source => cases h

theorem Manages.edge (h : m.Manages p i ids) (sound : m.Sound) (hc : c ∈ ids) :
    m.nameOf c ∈ m.directory.children p :=
  sound.directory.mem_parents.mp (by rw [h.parents c hc]; exact List.mem_singleton_self p)

theorem Manages.children_ne_nil (h : m.Manages p i ids) (sound : m.Sound) :
    m.directory.children p ≠ [] := by
  obtain ⟨c, hc⟩ := List.exists_mem_of_ne_nil ids h.nonempty
  exact List.ne_nil_of_mem (h.edge sound hc)

structure Extends (m m' : BatteryDirectoryManager) : Prop where
  grows : World.Grows m.world m'.world
  battery : ∀ n i, m.getBattery n = some i → m'.getBattery n = some i
  parents : ∀ n i, m.getBattery n = some i → m'.directory.parents n = m.directory.parents n
  newParents : ∀ n i, m'.getBattery n = some i → m.getBattery n = none →
    ∀ q ∈ m'.directory.parents n, m.directory.children q = []
  single : ∀ q i, m'.getBattery q = some i →
    (m'.world.kind? i).any Kind.isPartitionManager = false → m.directory.children q = [] →
      ∀ c ∈ m'.directory.children q, ∀ c' ∈ m'.directory.children q, c = c'

section Extend

variable (ext : Extends m m') (sound : m.Sound) (sound' : m'.Sound)
include ext sound

theorem Extends.nameOf_eq {n : String} (stored : m.getBattery n = some i) :
    m'.nameOf i = m.nameOf i :=
  ext.grows.name i (sound.registered n i stored).1

theorem Extends.kind_eq {n : String} (stored : m.getBattery n = some i) :
    m'.world.kind? i = m.world.kind? i :=
  ext.grows.kind i (sound.registered n i stored).1

theorem Belongs.extend {c : ℕ} (h : m.Belongs name i) (before : m.getBattery name = some c) :
    m'.Belongs name i where
  parents := by
    rw [ext.parents name c before, ext.nameOf_eq sound h.registered]
    exact h.parents
  registered := by
    rw [ext.nameOf_eq sound h.registered]
    exact ext.battery _ i h.registered
  kind := by
    rw [ext.kind_eq sound h.registered]
    exact h.kind

include sound'

theorem Extends.mem_children {x : String} (some : m.directory.children p ≠ [])
    (edge : x ∈ m'.directory.children p) : x ∈ m.directory.children p := by
  obtain ⟨-, j, -, stored, -⟩ := sound'.directory.later p x edge
  have parent := sound'.directory.mem_parents.mpr edge
  cases before : m.getBattery x with
  | none => exact absurd (ext.newParents x j stored before p parent) some
  | some k =>
      rw [ext.parents x k before] at parent
      exact sound.directory.mem_parents.mp parent

theorem Manages.extend (h : m.Manages p i ids) : m'.Manages p i ids where
  nonempty := h.nonempty
  registered c hc := by
    rw [ext.nameOf_eq sound (h.registered c hc)]
    exact ext.battery _ c (h.registered c hc)
  kind c hc := (ext.kind_eq sound (h.registered c hc)).trans (h.kind c hc)
  parents c hc := by
    rw [ext.nameOf_eq sound (h.registered c hc), ext.parents _ c (h.registered c hc)]
    exact h.parents c hc
  children x hx := by
    obtain ⟨c, hc, rfl⟩ := h.children x (ext.mem_children sound sound' (h.children_ne_nil sound) hx)
    exact ⟨c, hc, ext.nameOf_eq sound (h.registered c hc)⟩

theorem Arranged.extend (h : m.Arranged)
    (newManager : ∀ p i policyType source children childProportions, m'.getBattery p = some i →
      m.getBattery p = none → m'.world.kind? i =
        some (.partitionManager policyType source children childProportions) →
        m'.Manages p i children)
    (newPartition : ∀ name c i, m'.getBattery name = some c → m.getBattery name = none →
      m'.world.kind? c = some (.partition i) → m'.Belongs name i) : m'.Arranged where
  single p i stored kind := by
    by_cases none : m.directory.children p = []
    · exact ext.single p i stored kind none
    · obtain ⟨x, hx⟩ := List.exists_mem_of_ne_nil _ none
      obtain ⟨k, -, before, -⟩ := sound.directory.later p x hx
      obtain rfl := Option.some.inj (stored.symm.trans (ext.battery p k before))
      rw [ext.kind_eq sound before] at kind
      exact fun c hc c' hc' => h.single p i before kind c
        (ext.mem_children sound sound' none hc) c' (ext.mem_children sound sound' none hc')
  manager p i policyType source children childProportions stored kind := by
    cases before : m.getBattery p with
    | none => exact newManager p i _ _ _ _ stored before kind
    | some k =>
        obtain rfl := Option.some.inj (stored.symm.trans (ext.battery p k before))
        rw [ext.kind_eq sound before] at kind
        exact (h.manager p i _ _ _ _ before kind).extend ext sound sound'
  partition name c i stored kind := by
    cases before : m.getBattery name with
    | none => exact newPartition name c i stored before kind
    | some k =>
        obtain rfl := Option.some.inj (stored.symm.trans (ext.battery name k before))
        rw [ext.kind_eq sound before] at kind
        exact (h.partition name c i before kind).extend ext sound before

end Extend

def ParentsOnce (m : BatteryDirectoryManager) : Prop := ∀ name, (m.directory.parents name).Nodup

theorem Arranged.apart (h : m.Arranged) (sound : m.Sound) (once : m.ParentsOnce) :
    m.directory.Apart where
  nodup p := by
    refine List.nodup_iff_count_le_one.mpr fun c => ?_
    exact (sound.directory.inverse p c).le.trans (List.nodup_iff_count_le_one.mp (once c) p)
  apart p a ha b hb ne path := by
    obtain ⟨i, -, stored, -⟩ := sound.directory.later p a ha
    cases kind : (m.world.kind? i).any Kind.isPartitionManager with
    | false => exact ne (h.single p i stored kind a ha b hb)
    | true =>
        obtain ⟨policyType, source, ids, childProportions, hkind⟩ :=
          exists_of_isPartitionManager kind
        have manages := h.manager p i _ _ _ _ stored hkind
        obtain ⟨c, hc, rfl⟩ := manages.children b hb
        rcases Relation.ReflTransGen.cases_tail path with same | ⟨q, before, last⟩
        · exact ne same.symm
        · -- the only way to a partition is through its manager
          have parent := sound.directory.mem_parents.mpr last
          rw [manages.parents c hc, List.mem_singleton] at parent
          subst parent
          exact sound.directory.wellFormed.acyclic q (Relation.TransGen.head' ha before)

theorem Arranged.removalTarget_kind (h : m.Arranged) {battery k : ℕ}
    (stored : m.getBattery name = some battery)
    (target : m.getBattery (m.removalTarget name battery) = some k) :
    ∀ source, m.world.kind? k ≠ some (.partition source) := by
  intro source kind
  unfold removalTarget at target
  split at target
  · next manager hkind =>
      have belongs := h.partition name battery manager stored hkind
      obtain rfl : manager = k := Option.some.inj (belongs.registered.symm.trans target)
      have manages := belongs.kind
      rw [kind] at manages
      cases manages
  all_goals
    next hkind =>
      obtain rfl := Option.some.inj (stored.symm.trans target)
      rw [hkind] at kind
      cases kind

theorem Arranged.removal (h : m.Arranged) (sound : m.Sound) (once : m.ParentsOnce)
    {removed : Bool} (run : m.removeBattery name = some (removed, m')) : m'.Arranged := by
  unfold removeBattery at run
  cases stored : m.getBattery name with
  | none =>
      rw [stored] at run
      cases run
      exact h
  | some battery =>
      rw [stored] at run
      dsimp only at run
      obtain ⟨⟨removed', d⟩, remove, result⟩ := Option.map_eq_some_iff.mp run
      obtain ⟨rfl, rfl⟩ := Prod.mk_inj.mp result
      cases target : m.directory.batteryMap.find? (m.removalTarget name battery) with
      | none =>
          have absent : ¬ m.directory.nameExists (m.removalTarget name battery) = true := by
            simp [BatteryDirectory.nameExists, target]
          unfold BatteryDirectory.removeBattery at remove
          rw [if_pos absent] at remove
          cases remove
          exact h
      | some k =>
          obtain ⟨d', clear, shrunk, sound', gone, frame⟩ := BatteryDirectory.removeBattery_clears
            (m.world.length + 1) (m.removalTarget name battery) sound.directory
            (h.apart sound once) (fun other i hi => (sound.registered other i hi).1) target
            (by omega)
          obtain ⟨rfl, rfl⟩ := Prod.mk_inj.mp (Option.some.inj (clear.symm.trans remove))
          have parents : ∀ x j, d'.batteryMap.find? x = some j →
              d'.parents x = m.directory.parents x := shrunk.parents
          refine ⟨fun p i hp kind a ha b hb => ?_, fun p i policyType source ids childProportions hp
            kind => ?_, fun x c i hx kind => ?_⟩
          · exact h.single p i (shrunk.battery p i hp) kind
              a (shrunk.mem_children sound.directory sound' ha)
              b (shrunk.mem_children sound.directory sound' hb)
          · have manages := h.manager p i _ _ _ _ (shrunk.battery p i hp) kind
            have kept : ∀ c ∈ ids, d'.batteryMap.find? (m.nameOf c) = some c := by
              intro c hc
              rw [frame (m.nameOf c) fun path => ?_]
              · exact manages.registered c hc
              rcases Relation.ReflTransGen.cases_tail path with same | ⟨q, before, last⟩
              · rw [← same] at target
                obtain rfl := Option.some.inj (target.symm.trans (manages.registered c hc))
                exact h.removalTarget_kind stored (same ▸ target) i (manages.kind _ hc)
              · have parent := sound.directory.mem_parents.mpr last
                rw [manages.parents c hc, List.mem_singleton] at parent
                subst parent
                have := shrunk.gone_of_reaches sound.directory sound' gone before
                rw [getBattery, this] at hp
                cases hp
            refine ⟨manages.nonempty, kept, manages.kind, fun c hc => ?_, fun x hx => ?_⟩
            · exact (parents _ c (kept c hc)).trans (manages.parents c hc)
            · exact manages.children x (shrunk.mem_children sound.directory sound' hx)
          · have belongs := h.partition x c i (shrunk.battery x c hx) kind
            have above : d'.parents x = [m.nameOf i] := (parents x c hx).trans belongs.parents
            refine ⟨above, ?_, belongs.kind⟩
            obtain ⟨j, -, hj, -⟩ := sound'.later (m.nameOf i) x
              (sound'.mem_parents.mp (by rw [above]; exact List.mem_singleton_self _))
            obtain rfl := Option.some.inj ((shrunk.battery _ j hj).symm.trans belongs.registered)
            exact hj

theorem Idles.extends (h : Idles m m') : Extends m m' where
  grows := h.grows
  battery n i stored := by rwa [getBattery, h.directory]
  parents n i _ := by rw [h.directory]
  newParents n i stored none := by
    rw [getBattery, h.directory] at stored
    rw [getBattery, stored] at none
    cases none
  single q i _ _ none c hc := by
    rw [h.directory, none] at hc
    cases hc

theorem Arranged.idles (h : m.Arranged) (sound : m.Sound) (idles : Idles m m') : m'.Arranged := by
  have old : ∀ {n j}, m'.getBattery n = some j → m.getBattery n ≠ none := by
    intro n j stored none
    rw [getBattery, idles.directory] at stored
    rw [getBattery, stored] at none
    cases none
  exact h.extend idles.extends sound (idles.sound sound)
    (fun _ _ _ _ _ _ stored none => absurd none (old stored))
    fun _ _ _ stored none => absurd none (old stored)

theorem BatteryMade.extends (made : BatteryMade m m' name) (sound : m.Sound)
    (children : m'.directory.children = m.directory.children)
    (parents : m'.directory.parents = m.directory.parents) : Extends m m' where
  grows := made.grows
  battery n i stored := (made.battery n i).mpr (.inl stored)
  parents n i _ := by rw [parents]
  newParents n i _ none q hq := by
    rw [parents, Fits.parents_of_none sound none] at hq
    cases hq
  single q i _ _ none c hc := by
    rw [children, none] at hc
    cases hc

theorem AggregateMade.extends {parentNames : List String}
    (made : AggregateMade m m' name parentNames) : Extends m m' where
  grows := made.grows
  battery n i stored := (made.battery n i).mpr (.inl stored)
  parents n i stored := by
    rw [made.parents, if_neg]
    rintro rfl
    rw [made.fresh] at stored
    cases stored
  newParents n i stored none q hq := by
    rcases (made.battery n i).mp stored with before | ⟨rfl, -⟩
    · rw [none] at before
      cases before
    · rw [made.parents, if_pos rfl] at hq
      obtain ⟨k, -, free⟩ := made.sources q hq
      exact free
  single q i _ _ none c hc c' hc' := by
    rw [made.children, none, List.nil_append] at hc hc'
    rw [List.eq_of_mem_replicate hc, List.eq_of_mem_replicate hc']

theorem PartitionMade.extends {args : PartitionArgs} {kept : List (String × ℕ)}
    (made : PartitionMade m m' args kept) (sound : m.Sound) : Extends m m' where
  grows := made.grows
  battery n i stored := (made.battery n i).mpr (.inl stored)
  parents n i stored := by
    rw [made.parents, if_neg fun child => ?_, if_neg fun same => ?_]
    · rw [same, made.managerFresh] at stored
      cases stored
    · obtain ⟨q, hq, rfl⟩ := List.mem_map.mp child
      rw [(made.keptFresh q hq).1] at stored
      cases stored
  newParents n i stored none q hq := by
    obtain ⟨source, -, free, -⟩ := made.source
    rw [made.parents] at hq
    split_ifs at hq with child same
    · obtain rfl := List.mem_singleton.mp hq
      exact Fits.children_of_none sound made.managerFresh
    · obtain rfl := List.mem_singleton.mp hq
      exact free
    · rw [Fits.parents_of_none sound none] at hq
      cases hq
  single q i stored notManager none c hc c' hc' := by
    obtain ⟨source, -, -, kind⟩ := made.source
    have other : q ≠ m.createPartitionManagerName := by
      rintro rfl
      have registered := (made.battery _ _).mpr (.inr List.mem_cons_self)
      obtain rfl := Option.some.inj (stored.symm.trans registered)
      rw [kind] at notManager
      cases notManager
    rw [made.children, if_neg other] at hc hc'
    split_ifs at hc hc'
    · rw [List.mem_singleton.mp hc, List.mem_singleton.mp hc']
    · rw [none] at hc
      cases hc

theorem Arranged.physical (h : m.Arranged) (sound : m.Sound) (made : BatteryMade m m' name)
    (kind : m'.world.kind? m.world.length = some .physical)
    (children : m'.directory.children = m.directory.children)
    (parents : m'.directory.parents = m.directory.parents) : m'.Arranged := by
  have new : ∀ {n j}, m'.getBattery n = some j → m.getBattery n = none →
      m'.world.kind? j = some .physical := by
    intro n j stored none
    rcases (made.battery n j).mp stored with before | ⟨rfl, rfl⟩
    · rw [none] at before
      cases before
    · exact kind
  refine h.extend (made.extends sound children parents) sound made.sound
    (fun p i _ _ _ _ stored none hkind => ?_) fun n c i stored none hkind => ?_
  · rw [new stored none] at hkind
    cases hkind
  · rw [new stored none] at hkind
    cases hkind

theorem Arranged.aggregate (h : m.Arranged) (sound : m.Sound) {parentNames : List String}
    (made : AggregateMade m m' name parentNames) : m'.Arranged := by
  obtain ⟨sources, kind⟩ := made.kind
  have new : ∀ {n j}, m'.getBattery n = some j → m.getBattery n = none →
      n = name ∧ m'.world.kind? j = some (.aggregate sources) := by
    intro n j stored none
    rcases (made.battery n j).mp stored with before | ⟨rfl, rfl⟩
    · rw [none] at before
      cases before
    · exact ⟨rfl, kind⟩
  refine h.extend made.extends sound made.sound (fun p i _ _ _ _ stored none hkind => ?_)
    fun n c i stored none hkind => ?_
  · rw [(new stored none).2] at hkind
    cases hkind
  · rw [(new stored none).2] at hkind
    cases hkind

theorem names_ne_nil {args : PartitionArgs} (accepted : m.refusesPartition args = false) :
    args.names ≠ [] := by
  intro none
  simp only [refusesPartition, Bool.or_eq_false_iff, Bool.not_eq_false', Bool.and_eq_true,
    decide_eq_true_eq, decide_eq_false_iff_not, not_not] at accepted
  obtain ⟨⟨⟨⟨sum, -⟩, ⟨scales, -⟩, -⟩, -⟩, -⟩ := accepted
  rw [none, List.length_nil, eq_comm, List.length_eq_zero_iff] at scales
  rw [scales] at sum
  simp at sum

theorem Arranged.partitioned (h : m.Arranged) (sound : m.Sound) {args : PartitionArgs}
    (made : PartitionMade m m' args (m.partitionEntries args)) (some : args.names ≠ []) :
    m'.Arranged := by
  obtain ⟨source, -, free, kind⟩ := made.source
  have managerKind : (m'.world.kind? m.world.length).any Kind.isPartitionManager = true := by
    rw [kind]
    rfl
  have managerName : m'.nameOf m.world.length = m.createPartitionManagerName := made.managerName
  have registered : m'.getBattery m.createPartitionManagerName = .some m.world.length :=
    (made.battery _ _).mpr (.inr List.mem_cons_self)
  have new : ∀ {n j}, m'.getBattery n = .some j → m.getBattery n = none →
      n = m.createPartitionManagerName ∧ j = m.world.length ∨ (n, j) ∈ m.partitionEntries args := by
    intro n j stored none
    rcases (made.battery n j).mp stored with before | member
    · rw [none] at before
      cases before
    · exact (List.mem_cons.mp member).imp_left Prod.mk_inj.mp
  have childName : ∀ {n j}, (n, j) ∈ m.partitionEntries args →
      n ∈ (m.partitionEntries args).map Prod.fst := fun member => List.mem_map_of_mem member
  refine h.extend (made.extends sound) sound made.sound
    (fun p i policyType source' ids scales stored none hkind => ?_)
    fun n c i stored none hkind => ?_
  · rcases new stored none with ⟨rfl, rfl⟩ | child
    swap
    · rw [(made.child _ child).1] at hkind
      cases hkind
    obtain ⟨-, -, rfl, -⟩ := Kind.partitionManager.inj (Option.some.inj (kind.symm.trans hkind))
    have ids := m.partitionEntries_places args
    have entry : ∀ c ∈ List.range' (m.world.length + 1) args.names.length,
        ∃ n, (n, c) ∈ m.partitionEntries args ∧ m'.nameOf c = n := by
      intro c hc
      obtain ⟨q, hq, rfl⟩ := List.mem_map.mp (ids ▸ hc)
      exact ⟨q.1, hq, (made.child q hq).2⟩
    refine ⟨?_, fun c hc => ?_, fun c hc => ?_, fun c hc => ?_, fun x hx => ?_⟩
    · simpa using some
    · obtain ⟨n, hq, rfl⟩ := entry c hc
      exact (made.battery _ _).mpr (.inr (List.mem_cons_of_mem _ hq))
    · obtain ⟨n, hq, rfl⟩ := entry c hc
      exact (made.child _ hq).1
    · obtain ⟨n, hq, rfl⟩ := entry c hc
      rw [made.parents, if_pos (childName hq)]
    · rw [made.children, if_pos rfl] at hx
      obtain ⟨q, hq, rfl⟩ := List.mem_map.mp hx
      exact ⟨q.2, ids ▸ List.mem_map_of_mem hq, (made.child q hq).2⟩
  · rcases new stored none with ⟨rfl, rfl⟩ | child
    · rw [kind] at hkind
      cases hkind
    · obtain rfl := Kind.partition.inj
        (Option.some.inj ((made.child _ child).1.symm.trans hkind))
      refine ⟨?_, managerName ▸ registered, managerKind⟩
      rw [made.parents, if_pos (childName child), managerName]

/-- The arguments on which `createPartitionBattery` does all of its work or nothing: those that
it refuses, those on which the program exits, and those whose names are free. -/
def Whole (m : BatteryDirectoryManager) (args : PartitionArgs) : Prop :=
  m.refusesPartition args = true ∨ m.directory.nameExists m.createPartitionManagerName = true ∨
    m.FreeNames args

/-- Partitions are made whole, and no battery lists a parent twice when one is removed. -/
def Orderly (m : BatteryDirectoryManager) : Call → Prop
  | .createPartitionBattery args => m.Whole args
  | .removeBattery _ => m.ParentsOnce
  | .createPhysicalBattery _ _ _ | .createAggregateBattery _ _ _ _ _ | .update _ _ => True

theorem Arranged.step (h : m.Arranged) (sound : m.Sound) {call : Call} (orderly : m.Orderly call)
    (run : m.step call = some m') : m'.Arranged := by
  cases step_cases sound run with
  | idles idles => exact h.idles sound idles
  | physical made kind children parents => exact h.physical sound made kind children parents
  | aggregate made => exact h.aggregate sound made
  | partition accepted made complete free =>
      rcases orderly with refused | taken | names
      · rw [accepted] at refused
        cases refused
      · obtain ⟨i, stored⟩ := BatteryDirectory.nameExists_iff.mp taken
        have fresh := made.managerFresh
        rw [getBattery, stored] at fresh
        cases fresh
      · rw [complete (free.mpr names)] at made
        exact h.partitioned sound made (names_ne_nil accepted)
  | removal remove => exact h.removal sound orderly remove

instance (args : PartitionArgs) : Decidable (m.FreeNames args) :=
  inferInstanceAs (Decidable (_ ∧ ∀ name ∈ args.names, _ ∧ _))

instance (args : PartitionArgs) : Decidable (m.Whole args) :=
  inferInstanceAs (Decidable (_ ∨ _ ∨ _))

def halvesOf (sourceName : String) (names : List String) : PartitionArgs where
  now := 0
  sourceName := sourceName
  policyType := .proportional
  names := names
  childProportions := [⟨1/2, 1/2⟩, ⟨1/2, 1/2⟩]
  maxStalenesses := [1000, 1000]
  refreshModes := [.lazy, .lazy]

end BatteryDirectoryManager

end BatteryOS.V3
