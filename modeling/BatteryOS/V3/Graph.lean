import BatteryOS.V3.Directory
import BatteryOS.V3.Status

/-! The two graphs of the directory. Every edge is in both, and leads from a battery to one that
was made after it: pointers grow along edges, so the graph has no cycle and the recursion of a
removal ends. -/

namespace BatteryOS.V3

namespace BatteryDirectory

def children (d : BatteryDirectory) (name : String) : List String := d.parentGraph.neighbours name

def parents (d : BatteryDirectory) (name : String) : List String := d.childGraph.neighbours name

/-- The graphs mirror each other, and edges lead to later batteries. -/
structure Sound (d : BatteryDirectory) : Prop where
  inverse : Adjacency.Inverse d.parentGraph d.childGraph
  parentGraph : d.parentGraph.NoEmpty
  childGraph : d.childGraph.NoEmpty
  later : ∀ p c, c ∈ d.children p →
    ∃ i j, d.batteryMap.find? p = some i ∧ d.batteryMap.find? c = some j ∧ i < j

variable {d d' d'' : BatteryDirectory} {name p c : String} {i j battery : ℕ}

theorem sound_empty : Sound .empty where
  inverse := Adjacency.inverse_empty
  parentGraph := Adjacency.noEmpty_empty
  childGraph := Adjacency.noEmpty_empty
  later p c h := by cases h

theorem Sound.mem_parents (h : d.Sound) : p ∈ d.parents c ↔ c ∈ d.children p :=
  h.inverse.mem_iff.symm

theorem nameExists_iff : d.nameExists name ↔ ∃ i, d.batteryMap.find? name = some i :=
  Option.isSome_iff_exists

theorem addBattery_eq_none : d.addBattery name battery = none ↔ d.nameExists name := by
  simp [addBattery]

theorem addBattery_eq_some : d.addBattery name battery = some d' ↔
    d.batteryMap.find? name = none ∧
      d' = { d with batteryMap := d.batteryMap.insert name battery } := by
  unfold addBattery nameExists
  cases d.batteryMap.find? name <;> simp [eq_comm]

theorem find?_addBattery (h : d.addBattery name battery = some d') (other : String) :
    d'.batteryMap.find? other = if other = name then some battery else d.batteryMap.find? other := by
  obtain ⟨fresh, rfl⟩ := addBattery_eq_some.mp h
  rw [OrderedMap.find?_insert, fresh]
  rfl

theorem children_addBattery (h : d.addBattery name battery = some d') (p : String) :
    d'.children p = d.children p := by
  obtain ⟨-, rfl⟩ := addBattery_eq_some.mp h
  rfl

theorem parents_addBattery (h : d.addBattery name battery = some d') (c : String) :
    d'.parents c = d.parents c := by
  obtain ⟨-, rfl⟩ := addBattery_eq_some.mp h
  rfl

theorem find?_of_addBattery (h : d.addBattery name battery = some d')
    (stored : d.batteryMap.find? p = some i) : d'.batteryMap.find? p = some i := by
  rw [find?_addBattery h, if_neg, stored]
  rintro rfl
  rw [(addBattery_eq_some.mp h).1] at stored
  cases stored

theorem Sound.addBattery (sound : d.Sound) (h : d.addBattery name battery = some d') : d'.Sound := by
  have later : ∀ p c, c ∈ d.children p →
      ∃ i j, d'.batteryMap.find? p = some i ∧ d'.batteryMap.find? c = some j ∧ i < j := by
    intro p c edge
    obtain ⟨i, j, hi, hj, hlt⟩ := sound.later p c edge
    exact ⟨i, j, find?_of_addBattery h hi, find?_of_addBattery h hj, hlt⟩
  obtain ⟨-, rfl⟩ := addBattery_eq_some.mp h
  exact ⟨sound.inverse, sound.parentGraph, sound.childGraph, later⟩

@[simp] theorem batteryMap_addEdge : (d.addEdge p c).batteryMap = d.batteryMap := by
  unfold addEdge
  split_ifs <;> rfl

section Edge

variable (hp : d.batteryMap.find? p = some i) (hc : d.batteryMap.find? c = some j)
include hp hc

theorem addEdge_eq : d.addEdge p c =
    { d with
      childGraph := d.childGraph.push c p
      parentGraph := d.parentGraph.push p c } := by
  simp [addEdge, nameExists, hp, hc]

theorem children_addEdge (q : String) :
    (d.addEdge p c).children q = if q = p then d.children p ++ [c] else d.children q := by
  rw [addEdge_eq hp hc]
  exact Adjacency.neighbours_push _ _ _ _

theorem parents_addEdge (q : String) :
    (d.addEdge p c).parents q = if q = c then d.parents c ++ [p] else d.parents q := by
  rw [addEdge_eq hp hc]
  exact Adjacency.neighbours_push _ _ _ _

theorem Sound.addEdge (sound : d.Sound) (hlt : i < j) : (d.addEdge p c).Sound := by
  have later : ∀ q a, a ∈ (d.addEdge p c).children q → ∃ i j,
      (d.addEdge p c).batteryMap.find? q = some i ∧
        (d.addEdge p c).batteryMap.find? a = some j ∧ i < j := by
    intro q a edge
    rw [batteryMap_addEdge]
    rw [children_addEdge hp hc] at edge
    split_ifs at edge with same
    · subst same
      rcases List.mem_append.mp edge with edge | edge
      · exact sound.later q a edge
      · obtain rfl := List.mem_singleton.mp edge
        exact ⟨i, j, hp, hc, hlt⟩
    · exact sound.later q a edge
  rw [addEdge_eq hp hc] at later ⊢
  exact ⟨sound.inverse.push p c, sound.parentGraph.push p c, sound.childGraph.push c p, later⟩

end Edge

/-- What a removal leaves: batteries that were there, each with the parents it had. -/
structure Shrunk (d d' : BatteryDirectory) : Prop where
  battery : ∀ name i, d'.batteryMap.find? name = some i → d.batteryMap.find? name = some i
  parents : ∀ name i, d'.batteryMap.find? name = some i → d'.parents name = d.parents name

theorem Shrunk.refl (d : BatteryDirectory) : Shrunk d d := ⟨fun _ _ h => h, fun _ _ _ => rfl⟩

theorem Shrunk.trans (h : Shrunk d d') (h' : Shrunk d' d'') : Shrunk d d'' :=
  ⟨fun name i stored => h.battery name i (h'.battery name i stored), fun name i stored =>
    (h'.parents name i stored).trans (h.parents name i (h'.battery name i stored))⟩

theorem Shrunk.find?_eq_none (h : Shrunk d d') (gone : d.batteryMap.find? name = none) :
    d'.batteryMap.find? name = none := by
  refine Option.eq_none_iff_forall_ne_some.mpr fun i stored => ?_
  rw [h.battery name i stored] at gone
  cases gone

theorem Shrunk.count_children (h : Shrunk d d') (sound : d.Sound) (sound' : d'.Sound)
    (stored : d'.batteryMap.find? c = some j) (p : String) :
    (d'.children p).count c = (d.children p).count c := by
  have parents : d'.childGraph.neighbours c = d.childGraph.neighbours c := h.parents c j stored
  exact (sound'.inverse p c).trans ((parents ▸ sound.inverse p c).symm)

theorem Shrunk.mem_children (h : Shrunk d d') (sound : d.Sound) (sound' : d'.Sound)
    (edge : c ∈ d'.children p) : c ∈ d.children p := by
  obtain ⟨-, j, -, stored, -⟩ := sound'.later p c edge
  rw [← List.count_pos_iff] at edge ⊢
  rwa [← h.count_children sound sound' stored]

theorem Shrunk.children_eq_nil (h : Shrunk d d') (sound : d.Sound) (sound' : d'.Sound)
    (gone : ∀ c ∈ d.children p, d'.batteryMap.find? c = none) : d'.children p = [] := by
  refine List.eq_nil_iff_forall_not_mem.mpr fun c edge => ?_
  obtain ⟨-, j, -, stored, -⟩ := sound'.later p c edge
  rw [gone c (h.mem_children sound sound' edge)] at stored
  cases stored

theorem unlink_spec (sound : d.Sound) (last : d.children name = []) :
    Shrunk d (d.unlink name) ∧ (d.unlink name).Sound ∧
      (d.unlink name).batteryMap.find? name = none := by
  have find : ∀ other, (d.unlink name).batteryMap.find? other =
      if other = name then none else d.batteryMap.find? other := OrderedMap.find?_erase _ _
  have parents : ∀ other, (d.unlink name).parents other =
      if other = name then [] else d.parents other := Adjacency.neighbours_erase _ _
  have children : ∀ other, (d.unlink name).children other =
      (d.children other).filter (· ≠ name) := sound.inverse.neighbours_foldl_drop name
  refine ⟨⟨fun other i stored => ?_, fun other i stored => ?_⟩, ⟨?_, ?_, ?_, ?_⟩, ?_⟩
  · rw [find] at stored
    split_ifs at stored
    exact stored
  · rw [find] at stored
    split_ifs at stored with same
    rw [parents, if_neg same]
  · exact sound.inverse.remove last
  · exact sound.parentGraph.foldl_drop _ _
  · exact sound.childGraph.erase name
  · intro p c edge
    rw [children, List.mem_filter] at edge
    obtain ⟨i, j, hi, hj, hlt⟩ := sound.later p c edge.1
    have hc : c ≠ name := by simpa using edge.2
    have hp : p ≠ name := by
      rintro rfl
      rw [last] at edge
      cases edge.1
    exact ⟨i, j, by rw [find, if_neg hp, hi], by rw [find, if_neg hc, hj], hlt⟩
  · rw [find, if_pos rfl]

def Removes (remove : BatteryDirectory → String → Option (Bool × BatteryDirectory))
    (d : BatteryDirectory) (name : String) : Prop :=
  ∃ removed d', remove d name = some (removed, d') ∧ Shrunk d d' ∧ d'.Sound ∧
    (removed = true → d'.batteryMap.find? name = none)

theorem removeChildren_spec
    (remove : BatteryDirectory → String → Option (Bool × BatteryDirectory)) (names : List String)
    (sound : d.Sound) (each : ∀ d', Shrunk d d' → d'.Sound → ∀ c ∈ names, Removes remove d' c) :
    ∃ removed d', removeChildren remove d names = some (removed, d') ∧ Shrunk d d' ∧ d'.Sound ∧
      (removed = true → ∀ c ∈ names, d'.batteryMap.find? c = none) := by
  induction names generalizing d with
  | nil => exact ⟨true, d, rfl, .refl d, sound, fun _ c hc => by cases hc⟩
  | cons c rest ih =>
      obtain ⟨removed, d', run, shrunk, sound', gone⟩ := each d (.refl d) sound c List.mem_cons_self
      cases removed with
      | false =>
          refine ⟨false, d', ?_, shrunk, sound', fun h => by cases h⟩
          simp [removeChildren, run]
      | true =>
          obtain ⟨removed', d'', run', shrunk', sound'', gone'⟩ := ih sound'
            fun d'' h hs a ha => each d'' (shrunk.trans h) hs a (List.mem_cons_of_mem c ha)
          refine ⟨removed', d'', ?_, shrunk.trans shrunk', sound'', fun h a ha => ?_⟩
          · simp [removeChildren, run, run']
          · rcases List.mem_cons.mp ha with rfl | ha
            · exact shrunk'.find?_eq_none (gone rfl)
            · exact gone' h a ha

/-- A removal ends when there is fuel for the pointers above that of the battery, and leaves the
graphs sound, whether it comes to its end or stops at a child. -/
theorem removeBattery_spec {bound : ℕ} (fuel : ℕ) (name : String) (sound : d.Sound)
    (bounded : ∀ name i, d.batteryMap.find? name = some i → i < bound) (positive : 0 < fuel)
    (enough : ∀ i, d.batteryMap.find? name = some i → bound ≤ i + fuel) :
    Removes (removeBattery fuel) d name := by
  induction fuel generalizing d name with
  | zero => exact absurd positive (lt_irrefl 0)
  | succ fuel ih =>
      unfold Removes removeBattery
      cases stored : d.batteryMap.find? name with
      | none =>
          have absent : ¬ d.nameExists name = true := by simp [nameExists, stored]
          rw [if_pos absent]
          exact ⟨false, d, rfl, .refl d, sound, fun h => by cases h⟩
      | some i =>
          have present : ¬ ¬ d.nameExists name = true := by simp [nameExists, stored]
          rw [if_neg present]
          cases below : d.parentGraph.find? name with
          | none =>
              have last : d.children name = [] := Adjacency.neighbours_of_none below
              exact ⟨true, _, rfl, (unlink_spec sound last).1, (unlink_spec sound last).2.1,
                fun _ => (unlink_spec sound last).2.2⟩
          | some childNames =>
              have all : d.children name = childNames := Adjacency.neighbours_of_find? below
              obtain ⟨removed, d', run, shrunk, sound', gone⟩ := removeChildren_spec
                (removeBattery fuel) childNames sound
                fun d' h hs c hc => by
                  obtain ⟨i', j, hi, hj, hlt⟩ := sound.later name c (all ▸ hc)
                  obtain rfl : i = i' := Option.some.inj (stored.symm.trans hi)
                  have := enough i stored
                  have := bounded c j hj
                  refine ih c hs (fun a k ha => bounded a k (h.battery a k ha)) (by omega)
                    fun k hk => ?_
                  obtain rfl : j = k := Option.some.inj (hj.symm.trans (h.battery c k hk))
                  omega
              simp only [run, Option.bind_eq_bind, Option.bind_some]
              cases removed with
              | false =>
                  exact ⟨false, d', rfl, shrunk, sound', fun h => by cases h⟩
              | true =>
                  have last : d'.children name = [] :=
                    shrunk.children_eq_nil sound sound' fun c edge => gone rfl c (all ▸ edge)
                  have same : OrderedMap.erase d'.parentGraph name = d'.parentGraph :=
                    OrderedMap.erase_of_none (sound'.parentGraph.find?_eq_none.mpr last)
                  obtain ⟨shrunk', sound'', absent⟩ := unlink_spec sound' last
                  refine ⟨true, d'.unlink name, ?_, shrunk.trans shrunk', sound'', fun _ => absent⟩
                  simp [same]

section Complete

abbrev Reaches (d : BatteryDirectory) : String → String → Prop :=
  Relation.ReflTransGen fun p c => c ∈ d.children p

structure Apart (d : BatteryDirectory) : Prop where
  nodup : ∀ p, (d.children p).Nodup
  apart : ∀ p, ∀ a ∈ d.children p, ∀ b ∈ d.children p, a ≠ b → ¬ d.Reaches a b

theorem Shrunk.reaches (h : Shrunk d d') (sound : d.Sound) (sound' : d'.Sound)
    (path : d'.Reaches p c) : d.Reaches p c :=
  Relation.ReflTransGen.mono (r := fun p c => c ∈ d'.children p)
    (fun _ _ edge => h.mem_children sound sound' edge) p c path

theorem Shrunk.apart (h : Shrunk d d') (sound : d.Sound) (sound' : d'.Sound) (apart : d.Apart) :
    d'.Apart where
  nodup p := by
    refine List.nodup_iff_count_le_one.mpr fun c => ?_
    by_cases edge : c ∈ d'.children p
    · obtain ⟨-, j, -, stored, -⟩ := sound'.later p c edge
      rw [h.count_children sound sound' stored]
      exact List.nodup_iff_count_le_one.mp (apart.nodup p) c
    · rw [List.count_eq_zero.mpr edge]
      exact Nat.zero_le 1
  apart p a ha b hb ne path := apart.apart p a (h.mem_children sound sound' ha) b
    (h.mem_children sound sound' hb) ne (h.reaches sound sound' path)

def Clears (remove : BatteryDirectory → String → Option (Bool × BatteryDirectory))
    (d : BatteryDirectory) (name : String) : Prop :=
  ∃ d', remove d name = some (true, d') ∧ Shrunk d d' ∧ d'.Sound ∧
    d'.batteryMap.find? name = none ∧
    ∀ y, ¬ d.Reaches name y → d'.batteryMap.find? y = d.batteryMap.find? y

theorem removeChildren_clears
    (remove : BatteryDirectory → String → Option (Bool × BatteryDirectory)) (names : List String)
    (sound : d.Sound) (registered : ∀ c ∈ names, ∃ j, d.batteryMap.find? c = some j)
    (apart : names.Pairwise fun a b => ¬ d.Reaches a b)
    (each : ∀ d', Shrunk d d' → d'.Sound → ∀ c ∈ names, (∃ j, d'.batteryMap.find? c = some j) →
      Clears remove d' c) :
    ∃ d', removeChildren remove d names = some (true, d') ∧ Shrunk d d' ∧ d'.Sound ∧
      (∀ c ∈ names, d'.batteryMap.find? c = none) ∧
      ∀ y, (∀ c ∈ names, ¬ d.Reaches c y) → d'.batteryMap.find? y = d.batteryMap.find? y := by
  induction names generalizing d with
  | nil => exact ⟨d, rfl, .refl d, sound, (fun c hc => by cases hc), fun y _ => rfl⟩
  | cons c rest ih =>
      obtain ⟨d', run, shrunk, sound', gone, frame⟩ := each d (.refl d) sound c
        List.mem_cons_self (registered c List.mem_cons_self)
      obtain ⟨first, others⟩ := List.pairwise_cons.mp apart
      obtain ⟨d'', run', shrunk', sound'', gone', frame'⟩ := ih sound'
        (fun a ha => by
          rw [frame a (first a ha)]
          exact registered a (List.mem_cons_of_mem c ha))
        (others.imp fun none path => none (shrunk.reaches sound sound' path))
        fun d'' h hs a ha => each d'' (shrunk.trans h) hs a (List.mem_cons_of_mem c ha)
      refine ⟨d'', ?_, shrunk.trans shrunk', sound'', fun a ha => ?_, fun y hy => ?_⟩
      · simp [removeChildren, run, run']
      · rcases List.mem_cons.mp ha with rfl | ha
        · exact shrunk'.find?_eq_none gone
        · exact gone' a ha
      · rw [frame' y fun a ha path => hy a (List.mem_cons_of_mem c ha)
          (shrunk.reaches sound sound' path), frame y (hy c List.mem_cons_self)]

theorem removeBattery_clears {bound : ℕ} (fuel : ℕ) (name : String) (sound : d.Sound)
    (apart : d.Apart) (bounded : ∀ name i, d.batteryMap.find? name = some i → i < bound)
    (stored : d.batteryMap.find? name = some i) (enough : bound ≤ i + fuel) :
    Clears (removeBattery fuel) d name := by
  induction fuel generalizing d name i with
  | zero => exact absurd (bounded name i stored) (not_lt.mpr enough)
  | succ fuel ih =>
      have present : ¬ ¬ d.nameExists name = true := by simp [nameExists, stored]
      unfold Clears removeBattery
      rw [if_neg present]
      have unlinked : ∀ {d' : BatteryDirectory}, d'.Sound → d'.children name = [] →
          ∀ y, y ≠ name → (d'.unlink name).batteryMap.find? y = d'.batteryMap.find? y :=
        fun _ _ y hy => (OrderedMap.find?_erase _ _ _).trans (if_neg hy)
      cases below : d.parentGraph.find? name with
      | none =>
          have last : d.children name = [] := Adjacency.neighbours_of_none below
          obtain ⟨shrunk, sound', gone⟩ := unlink_spec sound last
          refine ⟨_, rfl, shrunk, sound', gone, fun y far => unlinked sound last y ?_⟩
          rintro rfl
          exact far .refl
      | some childNames =>
          have all : d.children name = childNames := Adjacency.neighbours_of_find? below
          have later : ∀ c ∈ childNames, ∃ j, d.batteryMap.find? c = some j ∧ i < j := by
            intro c hc
            obtain ⟨i', j, hi, hj, hlt⟩ := sound.later name c (all ▸ hc)
            obtain rfl : i = i' := Option.some.inj (stored.symm.trans hi)
            exact ⟨j, hj, hlt⟩
          obtain ⟨d', run, shrunk, sound', gone, frame⟩ := removeChildren_clears
            (removeBattery fuel) childNames sound
            (fun c hc => by
              obtain ⟨j, hj, -⟩ := later c hc
              exact ⟨j, hj⟩)
            (all ▸ (apart.nodup name).imp_of_mem fun ha hb ne => apart.apart name _ ha _ hb ne)
            fun d' h hs c hc ⟨k, hk⟩ => by
              obtain ⟨j, hj, hlt⟩ := later c hc
              obtain rfl : j = k := Option.some.inj (hj.symm.trans (h.battery c k hk))
              exact ih c hs (h.apart sound hs apart)
                (fun a k ha => bounded a k (h.battery a k ha)) hk (by omega)
          have last : d'.children name = [] :=
            shrunk.children_eq_nil sound sound' fun c edge => gone c (all ▸ edge)
          have same : OrderedMap.erase d'.parentGraph name = d'.parentGraph :=
            OrderedMap.erase_of_none (sound'.parentGraph.find?_eq_none.mpr last)
          obtain ⟨shrunk', sound'', absent⟩ := unlink_spec sound' last
          refine ⟨d'.unlink name, ?_, shrunk.trans shrunk', sound'', absent, fun y far => ?_⟩
          · simp [run, same]
          · rw [unlinked sound' last y, frame y fun c hc path => ?_]
            · exact far (.head (all ▸ hc) path)
            · rintro rfl
              exact far .refl

end Complete

end BatteryDirectory

end BatteryOS.V3
