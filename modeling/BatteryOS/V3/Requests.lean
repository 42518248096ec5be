import BatteryOS.V3.Status

/-! What a request does to the batteries that it passes, whether it is accepted or refused on the
way: some of them have their status refreshed, and into some it is inserted, under its name and
number. A property of batteries that both keep is kept by every request. -/

namespace BatteryOS.V3

open World

structure RequestKey where
  name : String
  startTime : ℤ
  endTime : ℤ
  sequenceNumber : ℕ

namespace Battery

/-- The battery after some refreshes of its status and some inserts of a request. -/
inductive Touched (key : RequestKey) (b : Battery) : Battery → Prop
  | refl : Touched key b b
  | status {c : Battery} (status : BatteryStatus) : Touched key b c →
      Touched key b { c with status := status }
  | insert {c : Battery} (currentMA : ℚ) : Touched key b c →
      Touched key b (c.checkMergeAndInsertEvents key.name currentMA key.startTime key.endTime
        key.sequenceNumber)

variable {key : RequestKey} {b c d : Battery}

theorem Touched.trans (h : Touched key b c) (h' : Touched key c d) : Touched key b d := by
  induction h' with
  | refl => exact h
  | status status _ ih => exact ih.status status
  | insert currentMA _ ih => exact ih.insert currentMA

structure SameSettings (b c : Battery) : Prop where
  batteryName : c.batteryName = b.batteryName
  refreshMode : c.refreshMode = b.refreshMode
  maxStaleness : c.maxStaleness = b.maxStaleness
  currentMA : c.currentMA = b.currentMA

theorem Touched.sameSettings (h : Touched key b c) : SameSettings b c := by
  induction h with
  | refl => exact ⟨rfl, rfl, rfl, rfl⟩
  | status _ _ ih => exact ⟨ih.batteryName, ih.refreshMode, ih.maxStaleness, ih.currentMA⟩
  | insert _ _ ih => exact ⟨ih.batteryName, ih.refreshMode, ih.maxStaleness, ih.currentMA⟩

end Battery

namespace World

structure Touched (key : RequestKey) (w w' : World) : Prop where
  kind : ∀ i, w'.kind? i = w.kind? i
  battery : ∀ i, Battery.Touched key (w.battery i) (w'.battery i)

variable {key : RequestKey} {w w' w'' : World}

theorem Touched.refl (key : RequestKey) (w : World) : Touched key w w :=
  ⟨fun _ => rfl, fun _ => .refl⟩

theorem Touched.trans (h : Touched key w w') (h' : Touched key w' w'') : Touched key w w'' :=
  ⟨fun i => (h'.kind i).trans (h.kind i), fun i => (h.battery i).trans (h'.battery i)⟩

theorem Touched.length (h : Touched key w w') : w'.length = w.length := length_of_kind h.kind

theorem Touched.sameNodes (h : Touched key w w') : SameNodes w w' :=
  ⟨h.kind, fun i => (h.battery i).sameSettings.batteryName⟩

theorem Touched.layered (h : Touched key w w') (layered : w.Layered) : w'.Layered :=
  fun i kind hkind => layered i kind ((h.kind i).symm.trans hkind)

theorem Refreshes.touched (h : Refreshes w w') (key : RequestKey) : Touched key w w' where
  kind := h.kind
  battery i := by
    rw [h.battery i]
    exact .status _ .refl

theorem touched_insertEvents (key : RequestKey) (w : World) (i : ℕ) (currentMA : ℚ) :
    Touched key w
      (w.insertEvents i key.name currentMA key.startTime key.endTime key.sequenceNumber) where
  kind j := kind?_setBattery w i j _
  battery j := by
    rw [insertEvents, battery_setBattery]
    split_ifs
    · exact .insert currentMA .refl
    · exact .refl

end World

section Request

variable {key : RequestKey} {w : World}

def Serves (send : World → ℕ → ℚ → Option (Bool × World)) (key : RequestKey) (w : World) (i : ℕ) :
    Prop :=
  ∀ currentMA, ∃ accepted w', send w i currentMA = some (accepted, w') ∧ Touched key w w'

theorem dispatch_touched {get : World → ℕ → Option (BatteryStatus × World)}
    {send : World → ℕ → ℚ → Option (Bool × World)} {parents : List ℕ} (capacityMAh currentMA : ℚ)
    (gets : ∀ w', Touched key w w' → ∀ s ∈ parents, Gets get w' s)
    (serves : ∀ w', Touched key w w' → ∀ s ∈ parents, Serves send key w' s) :
    ∃ accepted w', dispatch get send capacityMAh currentMA w parents = some (accepted, w') ∧
      Touched key w w' := by
  induction parents generalizing w with
  | nil => exact ⟨true, w, rfl, .refl key w⟩
  | cons s rest ih =>
      obtain ⟨status, w₁, got, refreshed, -⟩ := gets w (.refl key w) s List.mem_cons_self
      have first := refreshed.touched key
      obtain ⟨accepted, w₂, sent, second⟩ := serves w₁ first s List.mem_cons_self
        (targetCurrent capacityMAh currentMA status)
      have both := first.trans second
      simp only [dispatch, got, sent, Option.bind_eq_bind, Option.bind_some]
      cases accepted with
      | false => exact ⟨false, w₂, rfl, both⟩
      | true =>
          obtain ⟨accepted, w₃, others, third⟩ := ih (w := w₂)
            (fun w' h s hs => gets w' (both.trans h) s (List.mem_cons_of_mem _ hs))
            fun w' h s hs => serves w' (both.trans h) s (List.mem_cons_of_mem _ hs)
          exact ⟨accepted, w₃, others, both.trans third⟩

theorem scheduleSetCurrent_touched (now : ℤ) {fuel i : ℕ} (layered : w.Layered)
    (hi : i < fuel) (hw : i < w.length) :
    Serves (scheduleSetCurrent now key.startTime key.endTime key.name key.sequenceNumber fuel) key
      w i := by
  induction fuel generalizing w i with
  | zero => exact absurd hi (Nat.not_lt_zero i)
  | succ fuel ih =>
      intro currentMA
      obtain ⟨kind, hkind⟩ := Option.isSome_iff_exists.mp (isSome_kind?.mpr hw)
      have below : ∀ s ∈ kind.sources, s < i := layered i kind hkind
      cases kind with
      | physical =>
          rw [scheduleSetCurrent_physical hkind]
          split_ifs
          · exact ⟨false, w, rfl, .refl key w⟩
          · exact ⟨true, _, rfl, touched_insertEvents key w i currentMA⟩
      | aggregate parents =>
          obtain ⟨status, w₁, got, refreshed, -⟩ := getStatus_spec now layered hi hw
          have first := refreshed.touched key
          rw [scheduleSetCurrent_aggregate hkind, got, Option.bind_some]
          split_ifs
          · exact ⟨false, w₁, rfl, first⟩
          · have inside : ∀ w', Touched key w₁ w' → ∀ s ∈ parents,
                w'.Layered ∧ s < fuel ∧ s < w'.length := by
              intro w' h s hs
              have lower := below s hs
              have length := (first.trans h).length
              exact ⟨(first.trans h).layered layered, by omega, by omega⟩
            obtain ⟨accepted, w₂, sent, second⟩ := dispatch_touched status.capacityMAh currentMA
              (fun w' h s hs => by
                obtain ⟨layered', hs', hw'⟩ := inside w' h s hs
                exact getStatus_spec now layered' hs' hw')
              fun w' h s hs => by
                obtain ⟨layered', hs', hw'⟩ := inside w' h s hs
                exact ih layered' hs' hw'
            exact ⟨accepted, w₂, sent, first.trans second⟩
      | partition source =>
          have lower : source < i := below source (List.mem_singleton_self _)
          have fuelled : source < fuel := by omega
          obtain ⟨accepted, w₁, sent, first⟩ := ih layered fuelled (lower.trans hw) currentMA
          rw [scheduleSetCurrent_partition hkind, sent, Option.map_some]
          split_ifs
          · exact ⟨false, w, rfl, .refl key w⟩
          · exact ⟨true, _, rfl, first.trans (touched_insertEvents key w₁ i currentMA)⟩
          · exact ⟨false, w₁, rfl, first⟩
      | partitionManager policyType source children childProportions =>
          have lower : source < i := below source (List.mem_singleton_self _)
          have fuelled : source < fuel := by omega
          obtain ⟨accepted, w₁, sent, first⟩ := ih layered fuelled (lower.trans hw) currentMA
          rw [scheduleSetCurrent_partitionManager hkind, sent, Option.map_some]
          split_ifs
          · exact ⟨true, _, rfl, first.trans (touched_insertEvents key w₁ i currentMA)⟩
          · exact ⟨false, w₁, rfl, first⟩

end Request

end BatteryOS.V3
