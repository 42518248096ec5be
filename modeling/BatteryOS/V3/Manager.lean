import BatteryOS.Library.StepRun
import BatteryOS.V3.Graph

/-! Runs of calls on the directory manager. Each call adds batteries at the end of the world and
edges that lead to them, or takes batteries out of the directory, so what holds of the graphs at
the start holds in every state that is reached. -/

namespace BatteryOS.V3

namespace World

structure Grows (w w' : World) : Prop where
  length : w.length ≤ w'.length
  kind : ∀ i < w.length, w'.kind? i = w.kind? i
  name : ∀ i < w.length, (w'.battery i).batteryName = (w.battery i).batteryName

variable {w w' w'' : World} {i : ℕ}

theorem Grows.refl (w : World) : Grows w w := ⟨le_rfl, fun _ _ => rfl, fun _ _ => rfl⟩

theorem Grows.trans (h : Grows w w') (h' : Grows w' w'') : Grows w w'' where
  length := h.length.trans h'.length
  kind i hi := (h'.kind i (hi.trans_le h.length)).trans (h.kind i hi)
  name i hi := (h'.name i (hi.trans_le h.length)).trans (h.name i hi)

theorem Refreshes.grows (h : Refreshes w w') : Grows w w' :=
  ⟨h.length.ge, fun i _ => h.kind i, fun i _ => h.sameNodes.name i⟩

theorem kind?_append_left (nodes : World) (hi : i < w.length) :
    World.kind? (w ++ nodes) i = w.kind? i := by
  unfold kind?
  rw [List.getElem?_append_left hi]

theorem kind?_append_right (w nodes : World) (k : ℕ) :
    World.kind? (w ++ nodes) (w.length + k) = nodes.kind? k := by
  unfold kind?
  rw [List.getElem?_append_right (Nat.le_add_right _ _), Nat.add_sub_cancel_left]

theorem battery_append_left (nodes : World) (hi : i < w.length) :
    World.battery (w ++ nodes) i = w.battery i := by
  unfold battery
  rw [List.getElem?_append_left hi]

theorem battery_append_right (w nodes : World) (k : ℕ) :
    World.battery (w ++ nodes) (w.length + k) = nodes.battery k := by
  unfold battery
  rw [List.getElem?_append_right (Nat.le_add_right _ _), Nat.add_sub_cancel_left]

theorem grows_append (w nodes : World) : Grows w (w ++ nodes) where
  length := by simp
  kind _ hi := kind?_append_left nodes hi
  name _ hi := by rw [battery_append_left nodes hi]

theorem grows_setBattery (w : World) (i : ℕ) {f : Battery → Battery}
    (h : ∀ b, (f b).batteryName = b.batteryName) : Grows w (w.setBattery i f) where
  length := by simp [setBattery]
  kind j _ := kind?_setBattery w i j f
  name j _ := (sameNodes_setBattery w i h).name j

theorem layered_append {nodes : World} (h : w.Layered)
    (later : ∀ k kind, nodes.kind? k = some kind → ∀ s ∈ kind.sources, s < w.length + k) :
    World.Layered (w ++ nodes) := by
  intro i kind hkind s hs
  by_cases hi : i < w.length
  · rw [kind?_append_left nodes hi] at hkind
    exact h i kind hkind s hs
  · obtain ⟨k, rfl⟩ := Nat.exists_eq_add_of_le (not_lt.mp hi)
    rw [kind?_append_right] at hkind
    exact later k kind hkind s hs

theorem append_node (node : Node) (h : w.Layered) (later : ∀ s ∈ node.kind.sources, s < w.length) :
    World.Layered (w ++ [node]) ∧ World.kind? (w ++ [node]) w.length = some node.kind ∧
      World.battery (w ++ [node]) w.length = node.battery := by
  refine ⟨layered_append h fun k kind hkind s hs => ?_, ?_, ?_⟩
  · cases k with
    | zero =>
        obtain rfl : node.kind = kind := by simpa [World.kind?] using hkind
        exact later s hs
    | succ k => simp [World.kind?] at hkind
  · exact kind?_append_right w [node] 0
  · exact battery_append_right w [node] 0

end World

open World

/-- The directory is sound and its pointers lead to batteries of the name. -/
structure Fits (d : BatteryDirectory) (w : World) : Prop where
  directory : d.Sound
  layered : w.Layered
  registered : ∀ name i, d.batteryMap.find? name = some i →
    i < w.length ∧ (w.battery i).batteryName = name

namespace Fits

variable {d d' : BatteryDirectory} {w w' : World} {name p c : String} {i j : ℕ}

theorem grow (h : Fits d w) (grows : Grows w w') (layered : w'.Layered) : Fits d w' where
  directory := h.directory
  layered := layered
  registered name i stored := by
    obtain ⟨hi, hname⟩ := h.registered name i stored
    exact ⟨hi.trans_le grows.length, (grows.name i hi).trans hname⟩

theorem shrink (h : Fits d w) (sound : d'.Sound) (shrunk : BatteryDirectory.Shrunk d d') :
    Fits d' w where
  directory := sound
  layered := h.layered
  registered name i stored := h.registered name i (shrunk.battery name i stored)

theorem addBattery (h : Fits d w) (added : d.addBattery name i = some d') (hi : i < w.length)
    (hname : (w.battery i).batteryName = name) : Fits d' w where
  directory := h.directory.addBattery added
  layered := h.layered
  registered other j stored := by
    rw [BatteryDirectory.find?_addBattery added] at stored
    split_ifs at stored with same
    · obtain rfl := Option.some.inj stored
      exact ⟨hi, hname.trans same.symm⟩
    · exact h.registered other j stored

theorem addEdge (h : Fits d w) (hp : d.batteryMap.find? p = some i)
    (hc : d.batteryMap.find? c = some j) (hlt : i < j) : Fits (d.addEdge p c) w where
  directory := h.directory.addEdge hp hc hlt
  layered := h.layered
  registered name k stored := by
    rw [BatteryDirectory.batteryMap_addEdge] at stored
    exact h.registered name k stored

theorem children_of_none (h : Fits d w) (none : d.batteryMap.find? p = none) :
    d.children p = [] := by
  refine List.eq_nil_iff_forall_not_mem.mpr fun c edge => ?_
  obtain ⟨i, -, hi, -⟩ := h.directory.later p c edge
  rw [none] at hi
  cases hi

theorem parents_of_none (h : Fits d w) (none : d.batteryMap.find? c = none) :
    d.parents c = [] := by
  refine List.eq_nil_iff_forall_not_mem.mpr fun p edge => ?_
  obtain ⟨-, j, -, hj, -⟩ := h.directory.later p c (h.directory.mem_parents.mp edge)
  rw [none] at hj
  cases hj

end Fits

namespace BatteryDirectory

variable {d d' : BatteryDirectory} {name pManager : String} {j manager : ℕ}

/-- The edges of an aggregate: one for every time that a parent is listed. -/
structure AggregateEdges (d d' : BatteryDirectory) (parentNames : List String) (name : String) :
    Prop where
  batteryMap : d'.batteryMap = d.batteryMap
  children : ∀ p, d'.children p = d.children p ++ List.replicate (parentNames.count p) name
  parents : ∀ c, d'.parents c = if c = name then d.parents name ++ parentNames else d.parents c

theorem addEdges_spec {w : World} (parentNames : List String) (fits : Fits d w)
    (hj : d.batteryMap.find? name = some j)
    (registered : ∀ p ∈ parentNames, ∃ i, d.batteryMap.find? p = some i ∧ i < j) :
    AggregateEdges d (parentNames.foldl (fun d parentName => d.addEdge parentName name) d)
        parentNames name ∧
      Fits (parentNames.foldl (fun d parentName => d.addEdge parentName name) d) w := by
  induction parentNames generalizing d with
  | nil => exact ⟨⟨rfl, fun p => by simp, fun c => by split_ifs with h <;> simp [h]⟩, fits⟩
  | cons parentName rest ih =>
      obtain ⟨i, hi, hlt⟩ := registered parentName List.mem_cons_self
      obtain ⟨edges, after⟩ := ih (fits.addEdge hi hj hlt) (by rw [batteryMap_addEdge, hj])
        fun p hp => by
          rw [batteryMap_addEdge]
          exact registered p (List.mem_cons_of_mem parentName hp)
      refine ⟨⟨?_, fun p => ?_, fun c => ?_⟩, after⟩
      · rw [List.foldl_cons, edges.batteryMap, batteryMap_addEdge]
      · rw [List.foldl_cons, edges.children, children_addEdge hi hj]
        split_ifs with same
        · subst same
          rw [List.count_cons_self, List.append_assoc, Nat.add_comm, List.replicate_add]
          rfl
        · rw [List.count_cons_of_ne (Ne.symm same)]
      · rw [List.foldl_cons, edges.parents, parents_addEdge hi hj, parents_addEdge hi hj]
        by_cases same : c = name <;> simp [same]

/-- The children that a partition registers: those before the first name that is taken. -/
structure PartitionEdges (d d' : BatteryDirectory) (pManager : String)
    (kept : List (String × ℕ)) : Prop where
  battery : ∀ name i, d'.batteryMap.find? name = some i ↔
    d.batteryMap.find? name = some i ∨ (name, i) ∈ kept
  children : ∀ p, d'.children p =
    if p = pManager then d.children p ++ kept.map Prod.fst else d.children p
  parents : ∀ c, d'.parents c =
    if c ∈ kept.map Prod.fst then d.parents c ++ [pManager] else d.parents c
  fresh : ∀ q ∈ kept, d.batteryMap.find? q.1 = none

theorem PartitionEdges.nil (d : BatteryDirectory) (pManager : String) :
    PartitionEdges d d pManager [] :=
  ⟨fun name i => by simp, fun p => by simp, fun c => by simp, fun q hq => by cases hq⟩

section NextChild

variable {next : BatteryDirectory} {battery : ℕ}

theorem absent_of_addBattery (added : d.addBattery name battery = some next) {other : String}
    (absent : (next.addEdge pManager name).batteryMap.find? other = none) :
    other ≠ name ∧ d.batteryMap.find? other = none := by
  rw [batteryMap_addEdge, find?_addBattery added] at absent
  split_ifs at absent with same
  exact ⟨same, absent⟩

theorem PartitionEdges.cons {kept : List (String × ℕ)} (added : d.addBattery name battery = some next)
    (hm : d.batteryMap.find? pManager = some manager)
    (edges : PartitionEdges (next.addEdge pManager name) d' pManager kept) :
    PartitionEdges d d' pManager ((name, battery) :: kept) := by
  have fresh := (addBattery_eq_some.mp added).1
  have find := find?_addBattery added
  have hm' : next.batteryMap.find? pManager = some manager := find?_of_addBattery added hm
  have hc : next.batteryMap.find? name = some battery := by rw [find, if_pos rfl]
  have later : ∀ q ∈ kept, q.1 ≠ name ∧ d.batteryMap.find? q.1 = none :=
    fun q hq => absent_of_addBattery added (edges.fresh q hq)
  refine ⟨fun other i => ?_, fun p => ?_, fun c => ?_, fun q hq => ?_⟩
  · rw [edges.battery, batteryMap_addEdge, find]
    by_cases same : other = name
    · subst same
      simp [fresh, eq_comm]
    · simp [same]
  · rw [edges.children, children_addEdge hm' hc, children_addBattery added,
      children_addBattery added]
    split_ifs with same
    · subst same
      simp
    · rfl
  · rw [edges.parents, parents_addEdge hm' hc, parents_addBattery added, parents_addBattery added]
    by_cases same : c = name
    · have once : name ∉ kept.map Prod.fst := by
        intro twice
        obtain ⟨q, hq, hname⟩ := List.mem_map.mp twice
        exact (later q hq).1 hname
      simp [same, once]
    · simp only [same, if_false, List.map_cons, List.mem_cons, false_or]
  · rcases List.mem_cons.mp hq with rfl | hq
    · exact fresh
    · exact (later q hq).2

theorem free_cons_iff {rest : List (String × ℕ)} (added : d.addBattery name battery = some next) :
    ((rest.map Prod.fst).Nodup ∧
        ∀ q ∈ rest, (next.addEdge pManager name).batteryMap.find? q.1 = none) ↔
      (((name, battery) :: rest).map Prod.fst).Nodup ∧
        ∀ q ∈ (name, battery) :: rest, d.batteryMap.find? q.1 = none := by
  rw [List.map_cons, List.nodup_cons, List.forall_mem_cons]
  constructor
  · rintro ⟨nodup, each⟩
    have apart : ∀ q ∈ rest, q.1 ≠ name ∧ d.batteryMap.find? q.1 = none :=
      fun q hq => absent_of_addBattery added (each q hq)
    refine ⟨⟨fun twice => ?_, nodup⟩, (addBattery_eq_some.mp added).1, fun q hq => (apart q hq).2⟩
    obtain ⟨q, hq, same⟩ := List.mem_map.mp twice
    exact (apart q hq).1 same
  · rintro ⟨⟨once, nodup⟩, -, each⟩
    refine ⟨nodup, fun q hq => ?_⟩
    rw [batteryMap_addEdge, find?_addBattery added, if_neg, each q hq]
    rintro same
    exact once (List.mem_map.mpr ⟨q, hq, same⟩)

end NextChild

theorem addPartitions_spec {w : World} {batteries : List (String × ℕ)} (fits : Fits d w)
    (hm : d.batteryMap.find? pManager = some manager)
    (made : ∀ q ∈ batteries, manager < q.2 ∧ q.2 < w.length ∧ (w.battery q.2).batteryName = q.1) :
    ∃ added d' kept, BatteryDirectoryManager.addPartitions pManager d batteries = (added, d') ∧
      kept <+: batteries ∧ PartitionEdges d d' pManager kept ∧ Fits d' w ∧
      (added = true → kept = batteries) ∧
      (added = true ↔ (batteries.map Prod.fst).Nodup ∧
        ∀ q ∈ batteries, d.batteryMap.find? q.1 = none) := by
  induction batteries generalizing d with
  | nil =>
      exact ⟨true, d, [], rfl, List.prefix_refl _, .nil d pManager, fits, fun _ => rfl, by simp⟩
  | cons q rest ih =>
      obtain ⟨name, battery⟩ := q
      obtain ⟨hlt, hw, hname⟩ := made (name, battery) List.mem_cons_self
      unfold BatteryDirectoryManager.addPartitions
      cases added : d.addBattery name battery with
      | none =>
          obtain ⟨i, taken⟩ := nameExists_iff.mp (addBattery_eq_none.mp added)
          refine ⟨false, d, [], rfl, List.nil_prefix, .nil d pManager, fits, (fun h => by cases h),
            iff_of_false (by simp) ?_⟩
          rintro ⟨-, free⟩
          rw [free _ List.mem_cons_self] at taken
          cases taken
      | some next =>
          have hm' : next.batteryMap.find? pManager = some manager := find?_of_addBattery added hm
          have hc : next.batteryMap.find? name = some battery := by
            rw [find?_addBattery added, if_pos rfl]
          obtain ⟨all, d', kept, run, isPrefix, edges, after, complete, free⟩ := ih
            ((fits.addBattery added hw hname).addEdge hm' hc hlt)
            (by rw [batteryMap_addEdge, hm'])
            fun q hq => made q (List.mem_cons_of_mem _ hq)
          exact ⟨all, d', (name, battery) :: kept, run, List.cons_prefix_cons.mpr ⟨rfl, isPrefix⟩,
            edges.cons added hm, after, fun h => by rw [complete h],
            free.trans (free_cons_iff added)⟩

end BatteryDirectory

theorem PartitionArgs.partitionBatteries_names (args : PartitionArgs) (status : BatteryStatus)
    (sequenceNumber : ℕ) (entries : List (String × ℤ × RefreshMode)) :
    (args.partitionBatteries status sequenceNumber entries).1.map Battery.batteryName =
      entries.map Prod.fst := by
  induction entries generalizing sequenceNumber with
  | nil => rfl
  | cons entry rest ih =>
      obtain ⟨name, maxStaleness, refreshMode⟩ := entry
      simp only [PartitionArgs.partitionBatteries]
      split_ifs
      · rw [List.map_cons, List.map_cons, ih]
        rfl
      · rw [List.map_cons, List.map_cons, ih]
        rfl

namespace BatteryDirectoryManager

variable {m m' : BatteryDirectoryManager} {name : String}

def Sound (m : BatteryDirectoryManager) : Prop := Fits m.directory m.world

theorem sound_empty : Sound empty where
  directory := BatteryDirectory.sound_empty
  layered i kind h := by simp [empty, World.kind?] at h
  registered name i h := by cases h

structure Idles (m m' : BatteryDirectoryManager) : Prop where
  directory : m'.directory = m.directory
  grows : Grows m.world m'.world
  layered : m'.world.Layered

theorem Idles.refl (h : m.Sound) : Idles m m := ⟨rfl, .refl _, h.layered⟩

theorem Idles.sound (h : Idles m m') (sound : m.Sound) : m'.Sound := by
  unfold Sound
  rw [h.directory]
  exact Fits.grow sound h.grows h.layered

theorem update_idles (h : m.Sound) (battery : ℕ) (content : Battery) :
    Idles m (m.update battery content) where
  directory := rfl
  grows := grows_setBattery m.world battery
    (f := fun b => { content with batteryName := b.batteryName }) fun _ => rfl
  layered i kind hkind := by
    refine h.layered i kind ?_
    rw [← hkind]
    exact (kind?_setBattery m.world battery i
      fun b => { content with batteryName := b.batteryName }).symm

theorem mapM_eq_some {α β : Type*} {f : α → Option β} {xs : List α} {ys : List β} :
    xs.mapM f = some ys ↔ xs.map f = ys.map some := by
  induction xs generalizing ys with
  | nil => cases ys <;> simp
  | cons x rest ih =>
      rw [List.mapM_cons]
      cases hx : f x with
      | none => cases ys <;> simp [hx]
      | some y =>
          cases hrest : rest.mapM f with
          | none =>
              cases ys with
              | nil => simp
              | cons y' ys' =>
                  have : rest.map f ≠ ys'.map some := fun e => by
                    rw [ih.mpr e] at hrest
                    cases hrest
                  simp [hx, this]
          | some zs =>
              have := ih.mp hrest
              cases ys <;> simp [hx, this, List.map_inj_right fun _ _ => Option.some.inj]

private theorem mapM_eq_none {α β : Type*} {f : α → Option β} {xs : List α} :
    xs.mapM f = none ↔ ∃ x ∈ xs, f x = none := by
  induction xs with
  | nil => simp
  | cons x rest ih =>
      rw [List.mapM_cons, List.exists_mem_cons_iff, ← ih]
      cases f x with
      | none => simp
      | some y => cases rest.mapM f <;> simp

theorem sourceBattery_eq_some {battery : ℕ} (h : m.sourceBattery name = some battery) :
    m.getBattery name = some battery ∧ m.directory.children name = [] := by
  unfold sourceBattery at h
  cases stored : m.getBattery name with
  | none => simp [stored] at h
  | some b =>
      rw [stored] at h
      dsimp only at h
      split_ifs at h with current source
      obtain rfl := Option.some.inj h
      refine ⟨rfl, Adjacency.neighbours_of_none ?_⟩
      simpa using (Bool.and_eq_true_iff.mp source).2

def refusesAggregate (m : BatteryDirectoryManager) (name : String) (parentNames : List String) :
    Bool :=
  parentNames.isEmpty || parentNames.any (fun p => (m.sourceBattery p).isNone) ||
    m.directory.nameExists name

structure BatteryMade (m m' : BatteryDirectoryManager) (name : String) : Prop where
  fresh : m.getBattery name = none
  battery : ∀ other i, m'.getBattery other = some i ↔
    m.getBattery other = some i ∨ other = name ∧ i = m.world.length
  grows : Grows m.world m'.world
  sound : m'.Sound

/-- What `createAggregateBattery` does when it is not refused. -/
structure AggregateMade (m m' : BatteryDirectoryManager) (name : String)
    (parentNames : List String) : Prop extends BatteryMade m m' name where
  sources : ∀ p ∈ parentNames, ∃ i, m.getBattery p = some i ∧ m.directory.children p = []
  kind : ∃ parents, m'.world.kind? m.world.length = some (.aggregate parents)
  children : ∀ p, m'.directory.children p =
    m.directory.children p ++ List.replicate (parentNames.count p) name
  parents : ∀ c, m'.directory.parents c = if c = name then parentNames else m.directory.parents c

theorem getBattery_made {d : BatteryDirectory}
    (added : m.directory.addBattery name m.world.length = some d) (other : String) (i : ℕ) :
    d.batteryMap.find? other = some i ↔
      m.getBattery other = some i ∨ other = name ∧ i = m.world.length := by
  rw [BatteryDirectory.find?_addBattery added]
  split_ifs with same
  · subst same
    have fresh : m.getBattery other = none := (BatteryDirectory.addBattery_eq_some.mp added).1
    simp [fresh, eq_comm]
  · simp [same, getBattery]

theorem createPhysicalBattery_cases (h : m.Sound) (name : String) (maxStaleness : ℤ)
    (refreshMode : RefreshMode) :
    let m' := (m.createPhysicalBattery name maxStaleness refreshMode).2
    (Idles m m' ∧ m.directory.nameExists name = true) ∨
      BatteryMade m m' name ∧ m'.world.kind? m.world.length = some .physical ∧
        m'.directory.children = m.directory.children ∧
        m'.directory.parents = m.directory.parents := by
  obtain ⟨layered, kind, battery⟩ := append_node (w := m.world)
    ⟨Battery.new name maxStaleness refreshMode, .physical⟩ h.layered fun s hs => by cases hs
  have grows := grows_append m.world [⟨Battery.new name maxStaleness refreshMode, .physical⟩]
  cases added : m.directory.addBattery name m.world.length with
  | none =>
      simp only [createPhysicalBattery, added]
      exact .inl ⟨⟨rfl, grows, layered⟩, BatteryDirectory.addBattery_eq_none.mp added⟩
  | some d =>
      simp only [createPhysicalBattery, added]
      refine .inr ⟨⟨(BatteryDirectory.addBattery_eq_some.mp added).1, getBattery_made added, grows,
        ?_⟩, kind, funext (BatteryDirectory.children_addBattery added),
        funext (BatteryDirectory.parents_addBattery added)⟩
      exact (Fits.grow h grows layered).addBattery added (by simp) (by rw [battery]; rfl)

theorem sources_of_mapM (h : m.Sound) {parentNames : List String} {parents : List ℕ}
    (mapped : parentNames.mapM m.sourceBattery = some parents) :
    (∀ p ∈ parentNames, ∃ b, m.sourceBattery p = some b) ∧ ∀ b ∈ parents, b < m.world.length := by
  have each := mapM_eq_some.mp mapped
  constructor
  · intro p hp
    have : m.sourceBattery p ∈ parents.map some := each ▸ List.mem_map_of_mem hp
    obtain ⟨b, -, hb⟩ := List.mem_map.mp this
    exact ⟨b, hb.symm⟩
  · intro b hb
    have : some b ∈ parentNames.map m.sourceBattery := each ▸ List.mem_map_of_mem hb
    obtain ⟨p, -, hp⟩ := List.mem_map.mp this
    exact (h.registered p b (sourceBattery_eq_some hp).1).1

theorem refusesAggregate_eq_false {parentNames : List String} (nonempty : parentNames ≠ [])
    (found : ∀ p ∈ parentNames, ∃ b, m.sourceBattery p = some b)
    (fresh : m.getBattery name = none) : m.refusesAggregate name parentNames = false := by
  have absent : m.directory.nameExists name = false := by
    rw [BatteryDirectory.nameExists, show m.directory.batteryMap.find? name = none from fresh]
    rfl
  simp only [refusesAggregate, absent, Bool.or_false, Bool.or_eq_false_iff,
    List.isEmpty_eq_false_iff, List.any_eq_false]
  refine ⟨nonempty, fun p hp => ?_⟩
  obtain ⟨b, hb⟩ := found p hp
  simp [hb]

theorem aggregateMade_of_added (h : m.Sound) {parentNames : List String} {parents : List ℕ}
    {node : Node} {d : BatteryDirectory} {sequenceNumber : ℕ}
    (mapped : parentNames.mapM m.sourceBattery = some parents)
    (kind : node.kind = .aggregate parents) (named : node.battery.batteryName = name)
    (added : m.directory.addBattery name m.world.length = some d) :
    AggregateMade m
      { m with
        directory := parentNames.foldl (fun d parentName => d.addEdge parentName name) d
        world := m.world ++ [node]
        sequenceNumber := sequenceNumber } name parentNames := by
  obtain ⟨found, sources⟩ := sources_of_mapM h mapped
  obtain ⟨layered, kind', battery⟩ := append_node node h.layered (by rwa [kind])
  have grows := grows_append m.world [node]
  have fresh : m.getBattery name = none := (BatteryDirectory.addBattery_eq_some.mp added).1
  have find := getBattery_made added
  have registered : ∀ p ∈ parentNames, ∃ i, d.batteryMap.find? p = some i ∧
      i < m.world.length := by
    intro p hp
    obtain ⟨b, hb⟩ := found p hp
    have stored := (sourceBattery_eq_some hb).1
    exact ⟨b, (find p b).mpr (.inl stored), (h.registered p b stored).1⟩
  obtain ⟨edges, fits⟩ := BatteryDirectory.addEdges_spec parentNames
    ((Fits.grow h grows layered).addBattery added (by simp) (by rw [battery, named]))
    ((find name _).mpr (.inr ⟨rfl, rfl⟩)) registered
  refine ⟨⟨fresh, fun other k => ?_, grows, fits⟩, fun p hp => ?_, ⟨parents, kind'.trans
    (congrArg some kind)⟩, fun p => ?_, fun c => ?_⟩
  · rw [getBattery, edges.batteryMap]
    exact find other k
  · obtain ⟨b, hb⟩ := found p hp
    exact ⟨b, sourceBattery_eq_some hb⟩
  · rw [edges.children, BatteryDirectory.children_addBattery added]
  · rw [edges.parents, BatteryDirectory.parents_addBattery added,
      BatteryDirectory.parents_addBattery added, Fits.parents_of_none h fresh, List.nil_append]

theorem createAggregateBattery_cases (h : m.Sound) (now : ℤ) (name : String)
    (parentNames : List String) (maxStaleness : ℤ) (refreshMode : RefreshMode) :
    let m' := (m.createAggregateBattery now name parentNames maxStaleness refreshMode).2
    (Idles m m' ∧ m.refusesAggregate name parentNames = true) ∨
      (AggregateMade m m' name parentNames ∧ m.refusesAggregate name parentNames = false) := by
  cases mapped : parentNames.mapM m.sourceBattery with
  | none =>
      obtain ⟨p, hp, missing⟩ := mapM_eq_none.mp mapped
      simp only [createAggregateBattery, mapped]
      refine .inl ⟨.refl h, ?_⟩
      simp only [refusesAggregate, Bool.or_eq_true, List.any_eq_true]
      exact .inl (.inr ⟨p, hp, by rw [missing]; rfl⟩)
  | some parents =>
      cases parents with
      | nil =>
          simp only [createAggregateBattery, mapped]
          have : parentNames = [] := by simpa using mapM_eq_some.mp mapped
          exact .inl ⟨.refl h, by simp [refusesAggregate, this]⟩
      | cons i rest =>
          obtain ⟨found, sources⟩ := sources_of_mapM h mapped
          cases added : m.directory.addBattery name m.world.length with
          | none =>
              simp only [createAggregateBattery, mapped, added]
              have layered := (append_node ⟨aggregateBattery name maxStaleness refreshMode now
                m.sequenceNumber, .aggregate (i :: rest)⟩ h.layered sources).1
              refine .inl ⟨⟨rfl, grows_append _ _, layered⟩, ?_⟩
              simp [refusesAggregate, BatteryDirectory.addBattery_eq_none.mp added]
          | some d =>
              simp only [createAggregateBattery, mapped, added]
              have nonempty : parentNames ≠ [] := by
                rintro rfl
                cases mapM_eq_some.mp mapped
              exact .inr ⟨aggregateMade_of_added h mapped rfl rfl added,
                refusesAggregate_eq_false nonempty found
                  (BatteryDirectory.addBattery_eq_some.mp added).1⟩

def FreeNames (m : BatteryDirectoryManager) (args : PartitionArgs) : Prop :=
  args.names.Nodup ∧ ∀ name ∈ args.names,
    m.getBattery name = none ∧ name ≠ m.createPartitionManagerName

def partitionEntries (m : BatteryDirectoryManager) (args : PartitionArgs) : List (String × ℕ) :=
  args.names.zip (List.range' (m.world.length + 1) args.names.length)

theorem append_partition {w : World} {n source : ℕ} (manager : Node) {batteries : List Battery}
    {names : List String} (hn : w.length = n) (layered : w.Layered) (bound : source < n)
    (kind : manager.kind.sources = [source]) (named : batteries.map Battery.batteryName = names) :
    let nodes : World := manager :: batteries.map fun b => ⟨b, .partition n⟩
    World.Layered (w ++ nodes) ∧ World.kind? (w ++ nodes) n = some manager.kind ∧
      World.battery (w ++ nodes) n = manager.battery ∧
      ∀ q ∈ names.zip (List.range' (n + 1) names.length), n < q.2 ∧
        q.2 < (w ++ nodes).length ∧ World.kind? (w ++ nodes) q.2 = some (.partition n) ∧
        (World.battery (w ++ nodes) q.2).batteryName = q.1 := by
  intro nodes
  subst hn
  refine ⟨layered_append layered fun k kind' hkind s hs => ?_, kind?_append_right w nodes 0,
    battery_append_right w nodes 0, fun q hq => ?_⟩
  · cases k with
    | zero =>
        obtain rfl : manager.kind = kind' := by simpa [World.kind?, nodes] using hkind
        rw [kind, List.mem_singleton] at hs
        omega
    | succ k =>
        obtain ⟨node, hnode, rfl⟩ := Option.map_eq_some_iff.mp hkind
        obtain ⟨b, -, rfl⟩ : ∃ b ∈ batteries, (⟨b, .partition w.length⟩ : Node) = node := by
          simpa using List.mem_of_getElem? (show (batteries.map _)[k]? = some node from hnode)
        obtain rfl : s = w.length := by simpa [Kind.sources] using hs
        omega
  · obtain ⟨k, hk, rfl⟩ := List.mem_iff_getElem.mp hq
    have hn : k < names.length := by simpa using hk
    have hb : k < batteries.length := by rwa [← named, List.length_map] at hn
    have place : (names.zip (List.range' (w.length + 1) names.length))[k].2 =
        w.length + (k + 1) := by
      simp
      omega
    have name : (names.zip (List.range' (w.length + 1) names.length))[k].1 = names[k] := by simp
    have node : nodes[k + 1]? = some ⟨batteries[k], .partition w.length⟩ := by
      simp [nodes, hb]
    rw [place, name, kind?_append_right, battery_append_right]
    refine ⟨by omega, ?_, ?_, ?_⟩
    · simp only [List.length_append, nodes, List.length_cons, List.length_map]
      omega
    · rw [World.kind?, node]
      rfl
    · rw [World.battery, node]
      simp [← named]

/-- What `createPartitionBattery` does when it is not refused: the manager is registered, and
of the children those before the first name that is taken. -/
structure PartitionMade (m m' : BatteryDirectoryManager) (args : PartitionArgs)
    (kept : List (String × ℕ)) : Prop where
  source : ∃ i, m.getBattery args.sourceName = some i ∧
    m.directory.children args.sourceName = [] ∧
    m'.world.kind? m.world.length = some (.partitionManager args.policyType i
      (List.range' (m.world.length + 1) args.names.length) args.childProportions)
  managerName : (m'.world.battery m.world.length).batteryName = m.createPartitionManagerName
  managerFresh : m.getBattery m.createPartitionManagerName = none
  child : ∀ q ∈ m.partitionEntries args, m'.world.kind? q.2 = some (.partition m.world.length) ∧
    (m'.world.battery q.2).batteryName = q.1
  isPrefix : kept <+: m.partitionEntries args
  keptFresh : ∀ q ∈ kept, m.getBattery q.1 = none ∧ q.1 ≠ m.createPartitionManagerName
  battery : ∀ name i, m'.getBattery name = some i ↔ m.getBattery name = some i ∨
    (name, i) ∈ (m.createPartitionManagerName, m.world.length) :: kept
  children : ∀ p, m'.directory.children p =
    if p = m.createPartitionManagerName then kept.map Prod.fst
    else if p = args.sourceName then [m.createPartitionManagerName]
    else m.directory.children p
  parents : ∀ c, m'.directory.parents c =
    if c ∈ kept.map Prod.fst then [m.createPartitionManagerName]
    else if c = m.createPartitionManagerName then [args.sourceName]
    else m.directory.parents c
  grows : Grows m.world m'.world
  sound : m'.Sound

theorem partition_accepted {args : PartitionArgs} (accepted : m.refusesPartition args = false) :
    args.names.length = (args.maxStalenesses.zip args.refreshModes).length ∧
      ∃ source, m.getBattery args.sourceName = some source ∧
        m.directory.children args.sourceName = [] := by
  simp only [refusesPartition, Bool.or_eq_false_iff, Bool.not_eq_false'] at accepted
  obtain ⟨⟨⟨-, sizes⟩, canBeSource⟩, -⟩ := accepted
  simp only [Bool.and_eq_true, decide_eq_true_eq] at sizes
  simp only [BatteryDirectory.canBeSource, Bool.and_eq_true, Option.isNone_iff_eq_none]
    at canBeSource
  obtain ⟨source, stored⟩ := BatteryDirectory.nameExists_iff.mp canBeSource.1
  refine ⟨?_, source, stored, Adjacency.neighbours_of_none canBeSource.2⟩
  rw [List.length_zip]
  omega

theorem partitionEntries_names (m : BatteryDirectoryManager) (args : PartitionArgs) :
    (m.partitionEntries args).map Prod.fst = args.names := by
  rw [partitionEntries, List.map_fst_zip]
  simp

theorem partitionEntries_places (m : BatteryDirectoryManager) (args : PartitionArgs) :
    (m.partitionEntries args).map Prod.snd =
      List.range' (m.world.length + 1) args.names.length := by
  rw [partitionEntries, List.map_snd_zip]
  simp

theorem addManager_spec (h : m.Sound) {sourceName : String} {w : World} {source : ℕ}
    {d : BatteryDirectory} (stored : m.getBattery sourceName = some source)
    (free : m.directory.children sourceName = []) (grows : Grows m.world w)
    (layered : w.Layered) (bound : m.world.length < w.length)
    (manager : (w.battery m.world.length).batteryName = m.createPartitionManagerName)
    (added : m.directory.addBattery m.createPartitionManagerName m.world.length = some d) :
    let d' := d.addEdge sourceName m.createPartitionManagerName
    (∀ name, d'.batteryMap.find? name =
        if name = m.createPartitionManagerName then some m.world.length else m.getBattery name) ∧
      (∀ p, d'.children p =
        if p = m.createPartitionManagerName then []
        else if p = sourceName then [m.createPartitionManagerName]
        else m.directory.children p) ∧
      (∀ c, d'.parents c =
        if c = m.createPartitionManagerName then [sourceName] else m.directory.parents c) ∧
      Fits d' w := by
  intro d'
  have fresh : m.getBattery m.createPartitionManagerName = none :=
    (BatteryDirectory.addBattery_eq_some.mp added).1
  have apart : sourceName ≠ m.createPartitionManagerName := by
    intro same
    rw [← same, stored] at fresh
    cases fresh
  have find := BatteryDirectory.find?_addBattery added
  have hs := BatteryDirectory.find?_of_addBattery added stored
  have hm : d.batteryMap.find? m.createPartitionManagerName = some m.world.length := by
    rw [find, if_pos rfl]
  refine ⟨fun name => ?_, fun p => ?_, fun c => ?_, ?_⟩
  · rw [BatteryDirectory.batteryMap_addEdge, find]
    rfl
  · rw [BatteryDirectory.children_addEdge hs hm, BatteryDirectory.children_addBattery added,
      BatteryDirectory.children_addBattery added]
    by_cases isManager : p = m.createPartitionManagerName
    · rw [if_pos isManager, if_neg (isManager ▸ apart.symm), isManager,
        Fits.children_of_none h fresh]
    · rw [if_neg isManager, free, List.nil_append]
  · rw [BatteryDirectory.parents_addEdge hs hm, BatteryDirectory.parents_addBattery added,
      BatteryDirectory.parents_addBattery added, Fits.parents_of_none h fresh, List.nil_append]
  · exact ((Fits.grow h grows layered).addBattery added bound manager).addEdge hs hm
      (h.registered _ _ stored).1

theorem partition_directory (h : m.Sound) {args : PartitionArgs} {w : World} {source : ℕ}
    {d : BatteryDirectory} (stored : m.getBattery args.sourceName = some source)
    (free : m.directory.children args.sourceName = []) (grows : Grows m.world w)
    (layered : w.Layered) (bound : m.world.length < w.length)
    (manager : (w.battery m.world.length).batteryName = m.createPartitionManagerName)
    (child : ∀ q ∈ m.partitionEntries args,
      m.world.length < q.2 ∧ q.2 < w.length ∧ (w.battery q.2).batteryName = q.1)
    (added : m.directory.addBattery m.createPartitionManagerName m.world.length = some d) :
    ∃ all d' kept,
      addPartitions m.createPartitionManagerName
        (d.addEdge args.sourceName m.createPartitionManagerName) (m.partitionEntries args) =
          (all, d') ∧
      kept <+: m.partitionEntries args ∧
      (∀ q ∈ kept, m.getBattery q.1 = none ∧ q.1 ≠ m.createPartitionManagerName) ∧
      (∀ name i, d'.batteryMap.find? name = some i ↔ m.getBattery name = some i ∨
        (name, i) ∈ (m.createPartitionManagerName, m.world.length) :: kept) ∧
      (∀ p, d'.children p =
        if p = m.createPartitionManagerName then kept.map Prod.fst
        else if p = args.sourceName then [m.createPartitionManagerName]
        else m.directory.children p) ∧
      (∀ c, d'.parents c =
        if c ∈ kept.map Prod.fst then [m.createPartitionManagerName]
        else if c = m.createPartitionManagerName then [args.sourceName]
        else m.directory.parents c) ∧
      Fits d' w ∧ (all = true → kept = m.partitionEntries args) ∧
      (all = true ↔ m.FreeNames args) := by
  obtain ⟨find, children, parents, fits⟩ :=
    addManager_spec h stored free grows layered bound manager added
  have fresh : m.getBattery m.createPartitionManagerName = none :=
    (BatteryDirectory.addBattery_eq_some.mp added).1
  obtain ⟨all, d', kept, run, isPrefix, edges, after, complete, free'⟩ :=
    BatteryDirectory.addPartitions_spec fits (by rw [find, if_pos rfl]) child
  have absent_iff (name : String) :
      (d.addEdge args.sourceName m.createPartitionManagerName).batteryMap.find? name = none ↔
        m.getBattery name = none ∧ name ≠ m.createPartitionManagerName := by
    rw [find]
    split_ifs with same <;> simp [same]
  have keptFresh := fun q hq => (absent_iff q.1).mp (edges.fresh q hq)
  refine ⟨all, d', kept, run, isPrefix, keptFresh, fun name i => ?_, fun p => ?_, fun c => ?_,
    after, complete, ?_⟩
  · refine (edges.battery name i).trans ?_
    rw [find]
    split_ifs with same
    · subst same
      simp [fresh, eq_comm]
    · simp [same]
  · rw [edges.children, children]
    split_ifs <;> rfl
  · rw [edges.parents, parents]
    by_cases isChild : c ∈ kept.map Prod.fst
    · obtain ⟨q, hq, rfl⟩ := List.mem_map.mp isChild
      obtain ⟨none, ne⟩ := keptFresh q hq
      rw [if_pos isChild, if_pos isChild, if_neg ne, Fits.parents_of_none h none, List.nil_append]
    · rw [if_neg isChild, if_neg isChild]
  · rw [free', FreeNames, partitionEntries_names]
    refine and_congr_right fun _ => ?_
    rw [← m.partitionEntries_names args, List.forall_mem_map]
    exact forall₂_congr fun q _ => absent_iff q.1

theorem createPartitionBattery_cases (h : m.Sound) (args : PartitionArgs) :
    (m.refusesPartition args = true ∧ m.createPartitionBattery args = some ([], m)) ∨
    (m.refusesPartition args = false ∧
      m.directory.nameExists m.createPartitionManagerName = true ∧
      m.createPartitionBattery args = none) ∨
    (m.refusesPartition args = false ∧ ∃ added m' kept,
      m.createPartitionBattery args = some
        (if added then List.range' (m.world.length + 1) args.names.length else [], m') ∧
      PartitionMade m m' args kept ∧ (added = true → kept = m.partitionEntries args) ∧
      (added = true ↔ m.FreeNames args)) := by
  cases refused : m.refusesPartition args with
  | true => exact .inl ⟨rfl, by simp only [createPartitionBattery, refused, if_true]⟩
  | false =>
      obtain ⟨lengths, source, stored, free⟩ := partition_accepted refused
      have sourceBound : source < m.world.length := (h.registered _ _ stored).1
      obtain ⟨status, w, got, refreshed, -⟩ := getStatus_spec args.now h.layered
        (sourceBound.trans (Nat.lt_add_one _)) sourceBound
      have length := refreshed.length
      obtain ⟨batteries, last, made⟩ : ∃ batteries last,
          args.partitionBatteries status (m.sequenceNumber + 1)
            (args.names.zip (args.maxStalenesses.zip args.refreshModes)) = (batteries, last) :=
        ⟨_, _, rfl⟩
      have named : batteries.map Battery.batteryName = args.names := by
        have := args.partitionBatteries_names status (m.sequenceNumber + 1)
          (args.names.zip (args.maxStalenesses.zip args.refreshModes))
        rw [made] at this
        rw [this, List.map_fst_zip lengths.le]
      cases added : m.directory.addBattery m.createPartitionManagerName m.world.length with
      | none =>
          refine .inr (.inl ⟨rfl, BatteryDirectory.addBattery_eq_none.mp added, ?_⟩)
          simp only [createPartitionBattery, refused, stored, got, length, added,
            Option.bind_eq_bind, Option.bind_some, Bool.false_eq_true, if_false, Option.bind_none]
      | some d =>
          obtain ⟨layered, kind, battery, child⟩ := append_partition
            ⟨partitionManagerBattery m.createPartitionManagerName status args.now m.sequenceNumber,
              .partitionManager args.policyType source
                (List.range' (m.world.length + 1) args.names.length) args.childProportions⟩
            length (refreshed.layered h.layered) sourceBound rfl named
          have grows := refreshed.grows.trans (grows_append w
            (⟨partitionManagerBattery m.createPartitionManagerName status args.now
                m.sequenceNumber, .partitionManager args.policyType source
                (List.range' (m.world.length + 1) args.names.length) args.childProportions⟩ ::
              batteries.map fun b => ⟨b, .partition m.world.length⟩))
          obtain ⟨all, d', kept, run, isPrefix, keptFresh, stored', children, parents, fits, complete,
            names⟩ := partition_directory h stored free grows layered
              (by rw [List.length_append, length, List.length_cons]; omega) (by rw [battery]; rfl)
              (fun q hq => ⟨(child q hq).1, (child q hq).2.1, (child q hq).2.2.2⟩) added
          have partition : PartitionMade m ⟨d', m.pManagerCounter + 1, _, last⟩ args kept :=
            { source := ⟨source, stored, free, kind⟩
              managerName := by rw [battery]; rfl
              managerFresh := (BatteryDirectory.addBattery_eq_some.mp added).1
              child := fun q hq => ⟨(child q hq).2.2.1, (child q hq).2.2.2⟩
              isPrefix := isPrefix
              keptFresh := keptFresh
              battery := stored'
              children := children
              parents := parents
              grows := grows
              sound := fits }
          refine .inr (.inr ⟨rfl, all, _, kept, ?_, partition, complete, names⟩)
          simp only [createPartitionBattery, refused, stored, got, made, added, length,
            Option.bind_eq_bind, Option.bind_some, Bool.false_eq_true, if_false, Option.pure_def]
          rw [← partitionEntries, run]

theorem removeBattery_spec (h : m.Sound) (name : String) :
    ∃ removed m', m.removeBattery name = some (removed, m') ∧ m'.world = m.world ∧
      BatteryDirectory.Shrunk m.directory m'.directory ∧ m'.Sound := by
  unfold removeBattery
  cases stored : m.getBattery name with
  | none => exact ⟨false, m, rfl, rfl, .refl _, h⟩
  | some battery =>
      obtain ⟨removed, d, run, shrunk, sound, -⟩ := BatteryDirectory.removeBattery_spec
        (m.world.length + 1) (m.removalTarget name battery) h.directory
        (fun other i hi => (h.registered other i hi).1) (Nat.succ_pos _) fun i _ => by omega
      dsimp only
      rw [run]
      exact ⟨removed, { m with directory := d }, rfl, rfl, shrunk, Fits.shrink h sound shrunk⟩

/-- The one call that does not return: the name of the manager is taken, which is an `ERROR`. -/
def Exits (m : BatteryDirectoryManager) : Call → Prop
  | .createPartitionBattery args => m.refusesPartition args = false ∧
      m.directory.nameExists m.createPartitionManagerName = true
  | .createPhysicalBattery _ _ _ | .createAggregateBattery _ _ _ _ _ | .removeBattery _
  | .update _ _ => False

theorem step_eq_none (h : m.Sound) {call : Call} (none : m.step call = none) : m.Exits call := by
  cases call with
  | createPhysicalBattery name maxStaleness refreshMode => cases none
  | createAggregateBattery now name parentNames maxStaleness refreshMode => cases none
  | createPartitionBattery args =>
      rcases createPartitionBattery_cases h args with
        ⟨-, create⟩ | ⟨refused, taken, -⟩ | ⟨-, added, m', kept, create, -⟩
      · simp [step, create] at none
      · exact ⟨refused, taken⟩
      · simp [step, create] at none
  | removeBattery name =>
      obtain ⟨removed, m', run, -⟩ := removeBattery_spec h name
      simp [step, run] at none
  | update battery content => cases none

/-- What a call that returns has done: nothing to the directory, or one of the four changes. -/
inductive Effect (m m' : BatteryDirectoryManager) : Call → Prop
  | idles {call : Call} (idles : Idles m m') : Effect m m' call
  | physical {name : String} {maxStaleness : ℤ} {refreshMode : RefreshMode}
    (made : BatteryMade m m' name) (kind : m'.world.kind? m.world.length = some .physical)
    (children : m'.directory.children = m.directory.children)
    (parents : m'.directory.parents = m.directory.parents) :
    Effect m m' (.createPhysicalBattery name maxStaleness refreshMode)
  | aggregate {now : ℤ} {name : String} {parentNames : List String} {maxStaleness : ℤ}
    {refreshMode : RefreshMode} (made : AggregateMade m m' name parentNames)
    (accepted : m.refusesAggregate name parentNames = false) :
    Effect m m' (.createAggregateBattery now name parentNames maxStaleness refreshMode)
  | partition {args : PartitionArgs} {added : Bool} {kept : List (String × ℕ)}
    (accepted : m.refusesPartition args = false) (made : PartitionMade m m' args kept)
    (complete : added = true → kept = m.partitionEntries args)
    (free : added = true ↔ m.FreeNames args) : Effect m m' (.createPartitionBattery args)
  | removal {name : String} {removed : Bool} (remove : m.removeBattery name = some (removed, m'))
    (world : m'.world = m.world) (shrunk : BatteryDirectory.Shrunk m.directory m'.directory)
    (sound : m'.Sound) : Effect m m' (.removeBattery name)

theorem step_cases (h : m.Sound) {call : Call} (run : m.step call = some m') :
    Effect m m' call := by
  cases call with
  | createPhysicalBattery name maxStaleness refreshMode =>
      obtain rfl := Option.some.inj run
      rcases createPhysicalBattery_cases h name maxStaleness refreshMode with
        ⟨idles, -⟩ | ⟨made, kind, children, parents⟩
      · exact .idles idles
      · exact .physical made kind children parents
  | createAggregateBattery now name parentNames maxStaleness refreshMode =>
      obtain rfl := Option.some.inj run
      rcases createAggregateBattery_cases h now name parentNames maxStaleness refreshMode with
        ⟨idles, -⟩ | ⟨made, accepted⟩
      · exact .idles idles
      · exact .aggregate made accepted
  | createPartitionBattery args =>
      obtain ⟨⟨created, next⟩, create, rfl⟩ := Option.map_eq_some_iff.mp run
      rcases createPartitionBattery_cases h args with
        ⟨-, idle⟩ | ⟨-, -, exits⟩ | ⟨accepted, added, m', kept, made, partition, complete, free⟩
      · rw [idle] at create
        cases create
        exact .idles (.refl h)
      · rw [exits] at create
        cases create
      · rw [made] at create
        cases create
        exact .partition accepted partition complete free
  | removeBattery name =>
      obtain ⟨removed, next, remove, world, shrunk, sound⟩ := removeBattery_spec h name
      rw [step, remove] at run
      cases run
      exact .removal remove world shrunk sound
  | update battery content =>
      obtain rfl := Option.some.inj run
      exact .idles (update_idles h battery content)

theorem step_sound (h : m.Sound) {call : Call} (run : m.step call = some m') : m'.Sound := by
  cases step_cases h run with
  | idles idles => exact idles.sound h
  | physical made => exact made.sound
  | aggregate made => exact made.sound
  | partition _ made => exact made.sound
  | removal _ _ _ sound => exact sound

def Along (P : BatteryDirectoryManager → Call → Prop) (calls : List Call) : Prop :=
  ∀ before call, before ++ [call] <+: calls → ∀ m, empty.exec before = some m → P m call

theorem exec_sound {calls : List Call} (run : empty.exec calls = some m) : m.Sound :=
  StepRun.exec_kept sound_empty (fun _ _ _ h step => step_sound h step) run

theorem exec_along {P : BatteryDirectoryManager → Call → Prop}
    {Q : BatteryDirectoryManager → Prop} (start : Q empty)
    (keep : ∀ m call m', m.Sound → Q m → P m call → m.step call = some m' → Q m')
    {calls : List Call} (along : Along P calls) (run : empty.exec calls = some m) : Q m := by
  have both : ∀ m call m', m.Sound ∧ Q m → P m call → m.step call = some m' → m'.Sound ∧ Q m' :=
    fun m call m' h hp step => ⟨step_sound h.1 step, keep m call m' h.1 h.2 hp step⟩
  exact (StepRun.exec_invariant (Q := fun m => m.Sound ∧ Q m) ⟨sound_empty, start⟩ both along
    run).2

end BatteryDirectoryManager

namespace BatteryDirectory

def Occurs (d : BatteryDirectory) (name : String) : Prop :=
  (∃ names, d.parentGraph.find? name = some names) ∨
    (∃ names, d.childGraph.find? name = some names) ∨
    (∃ p, name ∈ d.children p) ∨ ∃ c, name ∈ d.parents c

/-- The graphs are inverse multigraphs on registered names, without empty entries or cycles. -/
structure WellFormed (d : BatteryDirectory) : Prop where
  inverse : ∀ p c, (d.children p).count c = (d.parents c).count p
  registered : ∀ name, d.Occurs name → d.nameExists name = true
  parentGraph : ∀ name, d.parentGraph.find? name ≠ some []
  childGraph : ∀ name, d.childGraph.find? name ≠ some []
  acyclic : ∀ name, ¬ Relation.TransGen (fun p c => c ∈ d.children p) name name

variable {d : BatteryDirectory}

theorem Sound.later_of_path (h : d.Sound) {p c : String}
    (path : Relation.TransGen (fun p c => c ∈ d.children p) p c) :
    ∃ i j, d.batteryMap.find? p = some i ∧ d.batteryMap.find? c = some j ∧ i < j := by
  induction path with
  | single edge => exact h.later p _ edge
  | tail _ edge ih =>
      obtain ⟨i, j, hi, hj, hlt⟩ := ih
      obtain ⟨j', k, hj', hk, hlt'⟩ := h.later _ _ edge
      obtain rfl := Option.some.inj (hj.symm.trans hj')
      exact ⟨i, k, hi, hk, hlt.trans hlt'⟩

theorem Sound.wellFormed (h : d.Sound) : d.WellFormed where
  inverse := h.inverse
  registered name occurs := by
    have ofEdge : ∀ p c, c ∈ d.children p → d.nameExists p = true ∧ d.nameExists c = true := by
      intro p c edge
      obtain ⟨i, j, hi, hj, -⟩ := h.later p c edge
      exact ⟨nameExists_iff.mpr ⟨i, hi⟩, nameExists_iff.mpr ⟨j, hj⟩⟩
    rcases occurs with ⟨names, stored⟩ | ⟨names, stored⟩ | ⟨p, edge⟩ | ⟨c, edge⟩
    · cases names with
      | nil => exact absurd stored (h.parentGraph name)
      | cons c rest =>
          refine (ofEdge name c ?_).1
          rw [children, Adjacency.neighbours_of_find? stored]
          exact List.mem_cons_self
    · cases names with
      | nil => exact absurd stored (h.childGraph name)
      | cons p rest =>
          refine (ofEdge p name (h.mem_parents.mp ?_)).2
          rw [parents, Adjacency.neighbours_of_find? stored]
          exact List.mem_cons_self
    · exact (ofEdge p name edge).2
    · exact (ofEdge name c (h.mem_parents.mp edge)).1
  parentGraph := h.parentGraph
  childGraph := h.childGraph
  acyclic name path := by
    obtain ⟨i, j, hi, hj, hlt⟩ := h.later_of_path path
    obtain rfl := Option.some.inj (hi.symm.trans hj)
    exact lt_irrefl i hlt

end BatteryDirectory

namespace BatteryDirectoryManager

/-- In every state that is reached the graphs are well formed, and every call returns but the
one that exits the program. -/
theorem exec_wellFormed {m : BatteryDirectoryManager} {calls : List Call}
    (run : empty.exec calls = some m) :
    m.directory.WellFormed ∧ ∀ call, m.step call = none → m.Exits call :=
  ⟨(exec_sound run).directory.wellFormed, fun _ => step_eq_none (exec_sound run)⟩

/-- A diamond over one battery and a removal from the middle of it. -/
theorem exec_wellFormed_diamond :
    ∃ m, empty.exec
        [.createPhysicalBattery "p" 1000 .lazy,
          .createPartitionBattery ⟨0, "p", .proportional, ["a", "b"], [⟨1/2, 1/2⟩, ⟨1/2, 1/2⟩],
            [1000, 1000], [.lazy, .active]⟩,
          .createAggregateBattery 0 "g" ["a", "b"] 1000 .lazy, .removeBattery "g"] = some m ∧
      m.directory.WellFormed ∧ ∀ call, m.step call = none → m.Exits call := by
  obtain ⟨m, run⟩ := Option.isSome_iff_exists.mp (show (empty.exec
    [.createPhysicalBattery "p" 1000 .lazy,
      .createPartitionBattery ⟨0, "p", .proportional, ["a", "b"], [⟨1/2, 1/2⟩, ⟨1/2, 1/2⟩],
        [1000, 1000], [.lazy, .active]⟩,
      .createAggregateBattery 0 "g" ["a", "b"] 1000 .lazy, .removeBattery "g"]).isSome = true by
        decide +kernel)
  exact ⟨m, run, exec_wellFormed run⟩

end BatteryDirectoryManager

end BatteryOS.V3
