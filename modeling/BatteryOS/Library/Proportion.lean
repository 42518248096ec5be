import Mathlib.Algebra.BigOperators.Ring.List
import Mathlib.Algebra.Order.BigOperators.Group.List
import Mathlib.Algebra.Order.Field.Basic
import Mathlib.Data.Set.Finite.Lemmas
import Mathlib.Data.Set.Finite.List

/-! Shares in proportion to weights, each under a limit of its own. The rate at which the shares
are paid is bounded by the quotient of limit and weight of each party that has a weight; the
largest amount that can be shared is the total weight at the least of these quotients. A mean by
the weights lies among the values, as long as there is weight to divide by. -/

namespace Proportion

variable {α K : Type*} [Field K]

def totalWeight (weight : α → K) (parties : List α) : K := (parties.map weight).sum

def share (weight : α → K) (parties : List α) (amount : K) (x : α) : K :=
  weight x * amount / totalWeight weight parties

def rates (weight limit : α → K) (parties : List α) : Set K :=
  {rate | ∃ x ∈ parties, weight x ≠ 0 ∧ rate = limit x / weight x}

variable {weight limit : α → K} {parties : List α} {amount rate : K}

theorem sum_share (ne : totalWeight weight parties ≠ 0) :
    (parties.map (share weight parties amount)).sum = amount := by
  have rated (x : α) : share weight parties amount x =
      weight x * (amount / totalWeight weight parties) := mul_div_assoc ..
  rw [List.map_congr_left fun x _ => rated x, List.sum_map_mul_right]
  exact mul_div_cancel₀ amount ne

theorem sum_split {β : Type*} {value : β → K} {proportion : α → K} {parts : List β}
    (each : List.Forall₂ (fun x scale => value x = amount * proportion scale) parts parties)
    (whole : (parties.map proportion).sum = 1) : (parts.map value).sum = amount := by
  have scaled : (parts.map value).sum = amount * (parties.map proportion).sum := by
    clear whole
    induction each with
    | nil => simp
    | cons first _ ih =>
        rw [List.map_cons, List.map_cons, List.sum_cons, List.sum_cons, ih, first, mul_add]
  rw [scaled, whole, mul_one]

variable [LinearOrder K]

def Bearable (weight limit : α → K) (parties : List α) (amount : K) : Prop :=
  ∀ x ∈ parties, share weight parties amount x ≤ limit x

theorem exists_isLeast_rates (limit : α → K) (some_weight : ∃ x ∈ parties, weight x ≠ 0) :
    ∃ rate, IsLeast (rates weight limit parties) rate := by
  have finite : {x | x ∈ parties ∧ weight x ≠ 0}.Finite :=
    (List.finite_toSet parties).subset fun _ h => h.1
  obtain ⟨x, ⟨hx, ne⟩, least⟩ :=
    Set.exists_min_image _ (fun x => limit x / weight x) finite some_weight
  refine ⟨limit x / weight x, ⟨x, hx, ne, rfl⟩, ?_⟩
  rintro _ ⟨y, hy, ne', rfl⟩
  exact least y ⟨hy, ne'⟩

variable [IsStrictOrderedRing K]

theorem totalWeight_nonneg (nonneg : ∀ x ∈ parties, 0 ≤ weight x) :
    0 ≤ totalWeight weight parties :=
  List.sum_nonneg fun w hw => by
    obtain ⟨x, hx, rfl⟩ := List.mem_map.mp hw
    exact nonneg x hx

theorem totalWeight_pos (nonneg : ∀ x ∈ parties, 0 ≤ weight x) {x : α} (hx : x ∈ parties)
    (ne : weight x ≠ 0) : 0 < totalWeight weight parties := by
  have single : weight x ≤ totalWeight weight parties :=
    List.single_le_sum (by simpa using nonneg) _ (List.mem_map_of_mem hx)
  exact (lt_of_le_of_ne (nonneg x hx) (Ne.symm ne)).trans_le single

theorem share_nonneg (nonneg : ∀ x ∈ parties, 0 ≤ weight x) (amount_nonneg : 0 ≤ amount) {x : α}
    (hx : x ∈ parties) : 0 ≤ share weight parties amount x :=
  div_nonneg (mul_nonneg (nonneg x hx) amount_nonneg) (totalWeight_nonneg nonneg)

theorem Bearable.mono (h : Bearable weight limit parties amount)
    (nonneg : ∀ x ∈ parties, 0 ≤ weight x) {less : K} (le : less ≤ amount) :
    Bearable weight limit parties less := by
  intro x hx
  refine le_trans ?_ (h x hx)
  exact div_le_div_of_nonneg_right (mul_le_mul_of_nonneg_left le (nonneg x hx))
    (totalWeight_nonneg nonneg)

theorem bearable_mul_iff (nonneg : ∀ x ∈ parties, 0 ≤ weight x)
    (limits : ∀ x ∈ parties, 0 ≤ limit x) (some_weight : ∃ x ∈ parties, weight x ≠ 0) :
    Bearable weight limit parties (totalWeight weight parties * rate) ↔
      rate ∈ lowerBounds (rates weight limit parties) := by
  obtain ⟨x, hx, ne⟩ := some_weight
  have total := totalWeight_pos nonneg hx ne
  have paid (y : α) : share weight parties (totalWeight weight parties * rate) y =
      weight y * rate := by
    rw [share, mul_left_comm, mul_div_cancel_left₀ _ total.ne']
  constructor
  · rintro h _ ⟨y, hy, ne, rfl⟩
    have pos := lt_of_le_of_ne (nonneg y hy) (Ne.symm ne)
    rw [le_div_iff₀ pos, mul_comm, ← paid]
    exact h y hy
  · intro bound y hy
    rw [paid]
    by_cases zero : weight y = 0
    · rw [zero, zero_mul]
      exact limits y hy
    · have pos := lt_of_le_of_ne (nonneg y hy) (Ne.symm zero)
      rw [mul_comm, ← le_div_iff₀ pos]
      exact bound ⟨y, hy, zero, rfl⟩

theorem isGreatest_iff (nonneg : ∀ x ∈ parties, 0 ≤ weight x)
    (limits : ∀ x ∈ parties, 0 ≤ limit x) (some_weight : ∃ x ∈ parties, weight x ≠ 0) :
    IsGreatest {amount | Bearable weight limit parties amount}
      (totalWeight weight parties * rate) ↔ IsLeast (rates weight limit parties) rate := by
  have bearable (rate : K) : Bearable weight limit parties (totalWeight weight parties * rate) ↔
      rate ∈ lowerBounds (rates weight limit parties) := bearable_mul_iff nonneg limits some_weight
  have total : 0 < totalWeight weight parties := by
    obtain ⟨x, hx, ne⟩ := some_weight
    exact totalWeight_pos nonneg hx ne
  constructor
  · rintro ⟨inside, greatest⟩
    obtain ⟨least, isLeast⟩ := exists_isLeast_rates limit some_weight
    have below : rate ≤ least := (bearable rate).mp inside isLeast.1
    have above := le_of_mul_le_mul_left (greatest ((bearable least).mpr isLeast.2)) total
    rwa [le_antisymm below above]
  · rintro ⟨attained, least⟩
    refine ⟨(bearable rate).mpr least, fun amount h => ?_⟩
    have scaled : totalWeight weight parties * (amount / totalWeight weight parties) = amount :=
      mul_div_cancel₀ amount total.ne'
    have below := (bearable (amount / totalWeight weight parties)).mp (scaled.symm ▸ h) attained
    rw [← scaled]
    exact mul_le_mul_of_nonneg_left below total.le

/-! ### Means -/

section Mean

variable {value : α → K} {bound : K}

def mean (weight value : α → K) (parties : List α) : K :=
  (parties.map fun x => weight x * value x).sum / totalWeight weight parties

theorem le_mean (nonneg : ∀ x ∈ parties, 0 ≤ weight x) (total : totalWeight weight parties ≠ 0)
    (below : ∀ x ∈ parties, bound ≤ value x) : bound ≤ mean weight value parties := by
  have pos := lt_of_le_of_ne (totalWeight_nonneg nonneg) (Ne.symm total)
  rw [mean, le_div_iff₀ pos, mul_comm, totalWeight, ← List.sum_map_mul_right]
  exact List.sum_le_sum fun x hx => mul_le_mul_of_nonneg_left (below x hx) (nonneg x hx)

theorem mean_le (nonneg : ∀ x ∈ parties, 0 ≤ weight x) (total : totalWeight weight parties ≠ 0)
    (above : ∀ x ∈ parties, value x ≤ bound) : mean weight value parties ≤ bound := by
  have pos := lt_of_le_of_ne (totalWeight_nonneg nonneg) (Ne.symm total)
  rw [mean, div_le_iff₀ pos, mul_comm, totalWeight, ← List.sum_map_mul_right]
  exact List.sum_le_sum fun x hx => mul_le_mul_of_nonneg_left (above x hx) (nonneg x hx)

theorem exists_le_mean (nonneg : ∀ x ∈ parties, 0 ≤ weight x)
    (total : totalWeight weight parties ≠ 0) (ne : parties ≠ []) :
    ∃ x ∈ parties, value x ≤ mean weight value parties := by
  obtain ⟨x, hx, least⟩ := Set.exists_min_image {x | x ∈ parties} value
    (List.finite_toSet parties) (List.exists_mem_of_ne_nil parties ne)
  exact ⟨x, hx, le_mean nonneg total least⟩

theorem exists_mean_le (nonneg : ∀ x ∈ parties, 0 ≤ weight x)
    (total : totalWeight weight parties ≠ 0) (ne : parties ≠ []) :
    ∃ x ∈ parties, mean weight value parties ≤ value x := by
  obtain ⟨x, hx, greatest⟩ := Set.exists_max_image {x | x ∈ parties} value
    (List.finite_toSet parties) (List.exists_mem_of_ne_nil parties ne)
  exact ⟨x, hx, mean_le nonneg total greatest⟩

end Mean

end Proportion
