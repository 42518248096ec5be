import BatteryOS.V3.System

/-! What a call of `getStatus` does to the batteries it goes through. The recursion ends, since
a battery stands on batteries that were there before it, and it writes nothing but statuses. A
refresh leaves the charge of a battery as it is, that of an aggregate too when it is the sum of
what its parents hold. -/

namespace BatteryOS.V3

namespace World

def Layered (w : World) : Prop :=
  ∀ i kind, w.kind? i = some kind → ∀ s ∈ kind.sources, s < i

def capacity (w : World) (i : ℕ) : ℚ := (w.battery i).status.capacityMAh

/-- Every aggregate of a set, in which its parents are too, holds what they hold together. -/
def Summed (w : World) (S : ℕ → Prop) : Prop :=
  ∀ i parents, S i → w.kind? i = some (.aggregate parents) →
    (∀ s ∈ parents, S s) ∧ w.capacity i = (parents.map w.capacity).sum

/-- Nothing but statuses differs, and where the aggregates are summed, no charge. -/
structure Refreshes (w w' : World) : Prop where
  kind : ∀ i, w'.kind? i = w.kind? i
  battery : ∀ i, w'.battery i = { w.battery i with status := (w'.battery i).status }
  capacity : ∀ S, w.Summed S → ∀ i, S i → w'.capacity i = w.capacity i

variable {w w' w'' : World}

theorem Refreshes.refl (w : World) : Refreshes w w :=
  ⟨fun _ => rfl, fun _ => rfl, fun _ _ _ _ => rfl⟩

theorem Refreshes.layered (h : Refreshes w w') (layered : w.Layered) : w'.Layered :=
  fun i kind hkind => layered i kind ((h.kind i).symm.trans hkind)

theorem Refreshes.summed (h : Refreshes w w') {S : ℕ → Prop} (summed : w.Summed S) :
    w'.Summed S := by
  intro i parents hi hkind
  obtain ⟨inside, sum⟩ := summed i parents hi ((h.kind i).symm.trans hkind)
  refine ⟨inside, ?_⟩
  rw [h.capacity S summed i hi, sum]
  exact congrArg List.sum
    (List.map_congr_left fun s hs => (h.capacity S summed s (inside s hs)).symm)

theorem Refreshes.trans (h : Refreshes w w') (h' : Refreshes w' w'') : Refreshes w w'' where
  kind i := (h'.kind i).trans (h.kind i)
  battery i := by
    rw [h'.battery i, h.battery i]
  capacity S summed i hi := (h'.capacity S (h.summed summed) i hi).trans (h.capacity S summed i hi)

theorem isSome_kind? {i : ℕ} : (w.kind? i).isSome ↔ i < w.length := by
  simp [kind?]

theorem length_of_kind (h : ∀ i, w'.kind? i = w.kind? i) : w'.length = w.length := by
  refine le_antisymm (not_lt.mp fun hlt => ?_) (not_lt.mp fun hlt => ?_)
  · exact absurd (isSome_kind?.mp (h _ ▸ isSome_kind?.mpr hlt)) (lt_irrefl _)
  · exact absurd (isSome_kind?.mp (h _ ▸ isSome_kind?.mpr hlt)) (lt_irrefl _)

theorem Refreshes.length (h : Refreshes w w') : w'.length = w.length := length_of_kind h.kind

theorem Refreshes.sameNodes (h : Refreshes w w') : SameNodes w w' :=
  ⟨h.kind, fun i => by rw [h.battery i]⟩

theorem Refreshes.setBattery (h : Refreshes w w') {i : ℕ} {f : Battery → Battery}
    (other : ∀ b, f b = { b with status := (f b).status })
    (charge : ∀ S, w.Summed S → S i → (f (w'.battery i)).status.capacityMAh = w.capacity i) :
    Refreshes w (w'.setBattery i f) where
  kind j := (kind?_setBattery w' i j f).trans (h.kind j)
  battery j := by
    rw [battery_setBattery]
    split_ifs
    · rw [other, h.battery j]
    · exact h.battery j
  capacity S summed j hj := by
    unfold World.capacity
    rw [battery_setBattery]
    split_ifs with here
    · obtain ⟨rfl, -⟩ := here
      exact charge S summed hj
    · exact h.capacity S summed j hj

end World

open World

variable {w : World}

theorem refreshProportional_refreshed (pStatus : BatteryStatus) (w : World) (children : List ℕ)
    (childProportions : List Scale) :
    Refreshes w (refreshProportional pStatus w children childProportions) := by
  unfold refreshProportional
  induction children.zip childProportions generalizing w with
  | nil => exact .refl w
  | cons child rest ih =>
      refine Refreshes.trans ?_ (ih _)
      exact (Refreshes.refl w).setBattery (fun _ => rfl) fun _ _ _ => rfl

def Gets (get : World → ℕ → Option (BatteryStatus × World)) (w : World) (i : ℕ) : Prop :=
  ∃ status w', get w i = some (status, w') ∧ Refreshes w w' ∧
    ∀ S, w.Summed S → S i → status.capacityMAh = w.capacity i

theorem getStatuses_spec {get : World → ℕ → Option (BatteryStatus × World)} {sources : List ℕ}
    (each : ∀ w', Refreshes w w' → ∀ s ∈ sources, Gets get w' s) :
    ∃ statuses w', getStatuses get w sources = some (statuses, w') ∧ Refreshes w w' ∧
      ∀ S, w.Summed S → (∀ s ∈ sources, S s) →
        statuses.map BatteryStatus.capacityMAh = sources.map w.capacity := by
  induction sources generalizing w with
  | nil => exact ⟨[], w, rfl, .refl w, fun _ _ _ => rfl⟩
  | cons s rest ih =>
      obtain ⟨status, w', got, refreshed, charge⟩ := each w (.refl w) s List.mem_cons_self
      obtain ⟨statuses, w'', others, refreshed', charges⟩ := ih fun w'' h s' hs' =>
        each w'' (refreshed.trans h) s' (List.mem_cons_of_mem s hs')
      refine ⟨status :: statuses, w'', ?_, refreshed.trans refreshed', fun S summed inside => ?_⟩
      · simp only [getStatuses, got, others, Option.bind_eq_bind, Option.bind_some,
          Option.pure_def]
      · have others := (List.forall_mem_cons.mp inside).2
        rw [List.map_cons, List.map_cons, charge S summed (inside s List.mem_cons_self),
          charges S (refreshed.summed summed) others]
        exact congrArg _
          (List.map_congr_left fun s' hs' => refreshed.capacity S summed s' (others s' hs'))

/-- A refresh asks the sources and writes limits of children; the status it returns has the
charge of the battery. -/
theorem refresh_spec (now : ℤ) {get : World → ℕ → Option (BatteryStatus × World)} {i : ℕ} {node : Node}
    (hnode : w[i]? = some node)
    (each : ∀ w', Refreshes w w' → ∀ s ∈ node.kind.sources, Gets get w' s) :
    ∃ status w', refresh get now w node = some (status, w') ∧ Refreshes w w' ∧
      ∀ S, w.Summed S → S i → status.capacityMAh = w.capacity i := by
  have kind : w.kind? i = some node.kind := by rw [World.kind?, hnode, Option.map_some]
  have own : node.battery.status.capacityMAh = w.capacity i := by
    rw [World.capacity, World.battery, hnode]
    rfl
  cases hkind : node.kind with
  | physical => exact ⟨_, w, by simp only [refresh, hkind], .refl w, fun _ _ _ => own⟩
  | aggregate parents =>
      simp only [hkind, Kind.sources] at each kind
      obtain ⟨rated, w', gets, refreshed, -⟩ := getStatuses_spec each
      obtain ⟨summed, w'', gets', refreshed', charges⟩ := getStatuses_spec (w := w')
        fun w'' h => each w'' (refreshed.trans h)
      refine ⟨sumStatus (setCRate rated) now summed, w'', ?_, refreshed.trans refreshed',
        fun S sums inside => ?_⟩
      · simp only [refresh, hkind, gets, gets', Option.bind_eq_bind, Option.bind_some,
          Option.pure_def]
      · obtain ⟨parentsInside, sum⟩ := sums i parents inside kind
        rw [sum]
        change (summed.map BatteryStatus.capacityMAh).sum = _
        rw [charges S (refreshed.summed sums) parentsInside]
        exact congrArg _
          (List.map_congr_left fun s hs => refreshed.capacity S sums s (parentsInside s hs))
  | partition source =>
      exact ⟨{ node.battery.status with time := now }, w, by simp only [refresh, hkind], .refl w,
        fun _ _ _ => own⟩
  | partitionManager policyType source children childProportions =>
      simp only [hkind, Kind.sources] at each
      obtain ⟨pStatus, w', got, refreshed, -⟩ := each w (.refl w) source (by simp)
      simp only [refresh, hkind, got, Option.bind_eq_bind, Option.bind_some, Option.pure_def]
      refine ⟨_, _, rfl, ?_, fun _ _ _ => own⟩
      split_ifs
      · exact refreshed.trans (refreshProportional_refreshed pStatus w' children childProportions)
      · exact refreshed

theorem getStatus_spec (now : ℤ) (layered : w.Layered) {i fuel : ℕ} (hi : i < fuel) (hw : i < w.length) :
    Gets (getStatus now fuel) w i := by
  induction fuel generalizing w i with
  | zero => exact absurd hi (Nat.not_lt_zero i)
  | succ fuel ih =>
      have hnode : w[i]? = some w[i] := List.getElem?_eq_getElem hw
      have kind : w.kind? i = some w[i].kind := by rw [World.kind?, hnode, Option.map_some]
      have own : w[i].battery.status.capacityMAh = w.capacity i := by
        rw [World.capacity, World.battery, hnode]
        rfl
      unfold Gets getStatus
      simp only [hnode, Option.bind_eq_bind, Option.bind_some]
      split_ifs
      · obtain ⟨status, w', refreshes, refreshed, charge⟩ := refresh_spec now hnode
          fun w' h s hs => by
            have below := layered i _ kind s hs
            exact ih (h.layered layered) (by omega) (by rw [h.length]; omega)
        simp only [refreshes, Option.bind_some, Option.pure_def]
        exact ⟨status, _, rfl, refreshed.setBattery (fun _ => rfl) charge, charge⟩
      · exact ⟨_, w, rfl, .refl w, fun _ _ _ => own⟩

end BatteryOS.V3
