import Mathlib.Algebra.Order.BigOperators.Group.List
import Mathlib.Algebra.Order.Field.Rat
import Mathlib.Tactic.Linarith

/-! The scales by which a splitter divides its source, and the test of `make_splitter` that they
make up the whole. Doubles are rationals. -/

namespace BatteryOS.V2

def within01Range (num : ℚ) : Bool := 0 ≤ num && num ≤ 1

def dblEpsilon : ℚ := 1 / 2 ^ 52

def dblEqual (a b : ℚ) : Bool := |a - b| < dblEpsilon

/-- Its constructors leave no component outside of [0, 1]. -/
structure Scale where
  capacity : ℚ
  maxCapacity : ℚ
  maxDischargeRate : ℚ
  maxChargeRate : ℚ
  within : (within01Range capacity && within01Range maxCapacity &&
    within01Range maxDischargeRate && within01Range maxChargeRate) = true

namespace Scale

def new (soc maxCap maxDischargeRate maxChargeRate : ℚ) : Scale :=
  if h : (within01Range soc && within01Range maxCap && within01Range maxDischargeRate &&
      within01Range maxChargeRate) = true then
    ⟨soc, maxCap, maxDischargeRate, maxChargeRate, h⟩
  else ⟨0, 0, 0, 0, by decide⟩

def ofProportion (proportion : ℚ) : Scale :=
  if h : within01Range proportion = true then
    ⟨proportion, proportion, proportion, proportion, by simp [h]⟩
  else ⟨0, 0, 0, 0, by decide⟩

/-- `operator+`. Of the last components it compares one with the other, where the sum is meant. -/
def add (scale other : Scale) : Scale :=
  if within01Range (scale.capacity + other.capacity) &&
      within01Range (scale.maxCapacity + other.maxCapacity) &&
      within01Range (scale.maxDischargeRate + other.maxDischargeRate) &&
      within01Range (if scale.maxChargeRate ≥ other.maxChargeRate then 1 else 0) then
    new (scale.capacity + other.capacity) (scale.maxCapacity + other.maxCapacity)
      (scale.maxDischargeRate + other.maxDischargeRate)
      (scale.maxChargeRate + other.maxChargeRate)
  else ofProportion 0

def isZero (scale : Scale) : Bool :=
  dblEqual scale.capacity 0 || dblEqual scale.maxCapacity 0 ||
    dblEqual scale.maxDischargeRate 0 || dblEqual scale.maxChargeRate 0

def isOne (scale : Scale) : Bool :=
  dblEqual scale.capacity 1 && dblEqual scale.maxCapacity 1 &&
    dblEqual scale.maxDischargeRate 1 && dblEqual scale.maxChargeRate 1

/-- The loop of `make_splitter` from a sum on, and the test after it. -/
def sumsToOne (totalSum : Scale) : List Scale → Bool
  | [] => totalSum.isOne
  | scale :: rest =>
    let totalSum := totalSum.add scale
    if totalSum.isZero then false else sumsToOne totalSum rest

end Scale

def acceptsScales (childScales : List Scale) : Bool := (Scale.ofProportion 0).sumsToOne childScales

inductive Component
  | capacity
  | maxCapacity
  | maxDischargeRate
  | maxChargeRate

theorem within01Range_iff {num : ℚ} : within01Range num = true ↔ 0 ≤ num ∧ num ≤ 1 := by
  simp [within01Range]

namespace Scale

def get (scale : Scale) : Component → ℚ
  | .capacity => scale.capacity
  | .maxCapacity => scale.maxCapacity
  | .maxDischargeRate => scale.maxDischargeRate
  | .maxChargeRate => scale.maxChargeRate

theorem forall_component {P : Component → Prop} : (∀ c, P c) ↔
    ((P .capacity ∧ P .maxCapacity) ∧ P .maxDischargeRate) ∧ P .maxChargeRate := by
  constructor
  · exact fun h => ⟨⟨⟨h _, h _⟩, h _⟩, h _⟩
  · rintro ⟨⟨⟨capacity, maxCapacity⟩, discharge⟩, charge⟩ (_ | _ | _ | _) <;> assumption

theorem get_mem (scale : Scale) : ∀ c, 0 ≤ scale.get c ∧ scale.get c ≤ 1 := by
  simpa only [forall_component, get, Bool.and_eq_true, within01Range_iff] using scale.within

theorem get_ofProportion_zero (c : Component) : (ofProportion 0).get c = 0 := by
  cases c <;> rfl

theorem get_add_of_le {scale other : Scale} (fits : ∀ c, scale.get c + other.get c ≤ 1)
    (c : Component) : (scale.add other).get c = scale.get c + other.get c := by
  have inside (c : Component) : within01Range (scale.get c + other.get c) = true :=
    within01Range_iff.mpr ⟨add_nonneg (scale.get_mem c).1 (other.get_mem c).1, fits c⟩
  have compared : within01Range (if scale.maxChargeRate ≥ other.maxChargeRate then 1 else 0) =
      true := by
    split_ifs <;> decide
  have all := forall_component.mp inside
  simp only [get] at all
  rw [add, if_pos (by simp [all, compared]), new, dif_pos (by simp [all])]
  cases c <;> rfl

/-- Where a component would exceed one, the sum is zero: the constructor sees to that for the
component that `operator+` does not add up. -/
theorem get_add_of_lt {scale other : Scale} {exceeding : Component}
    (exceeds : 1 < scale.get exceeding + other.get exceeding) (c : Component) :
    (scale.add other).get c = 0 := by
  have outside : ¬ (within01Range (scale.capacity + other.capacity) &&
      within01Range (scale.maxCapacity + other.maxCapacity) &&
      within01Range (scale.maxDischargeRate + other.maxDischargeRate) &&
      within01Range (scale.maxChargeRate + other.maxChargeRate)) = true := by
    intro inside
    have inside : ∀ c, within01Range (scale.get c + other.get c) = true := by
      simpa only [forall_component, get, Bool.and_eq_true] using inside
    exact absurd (within01Range_iff.mp (inside exceeding)).2 exceeds.not_ge
  have refused : (new (scale.capacity + other.capacity) (scale.maxCapacity + other.maxCapacity)
      (scale.maxDischargeRate + other.maxDischargeRate)
      (scale.maxChargeRate + other.maxChargeRate)).get c = 0 := by
    rw [new, dif_neg outside]
    cases c <;> rfl
  rw [add, apply_ite (get · c), refused, get_ofProportion_zero, ite_self]

/-- Every component is more than rounding makes of a zero. -/
def Positive (scale : Scale) : Prop := ∀ c, dblEpsilon ≤ scale.get c

theorem isZero_eq_false_iff {scale : Scale} : scale.isZero = false ↔ scale.Positive := by
  have each (c : Component) : dblEqual (scale.get c) 0 = false ↔ dblEpsilon ≤ scale.get c := by
    rw [dblEqual, sub_zero, abs_of_nonneg (scale.get_mem c).1, decide_eq_false_iff_not, not_lt]
  rw [Positive, forall_component, isZero]
  simp only [Bool.or_eq_false_iff, ← each]
  rfl

theorem isOne_iff {scale : Scale} : scale.isOne = true ↔ ∀ c, 1 - dblEpsilon < scale.get c := by
  have each (c : Component) : dblEqual (scale.get c) 1 = true ↔ 1 - dblEpsilon < scale.get c := by
    rw [dblEqual, decide_eq_true_iff, abs_sub_comm,
      abs_of_nonneg (sub_nonneg.mpr (scale.get_mem c).2)]
    constructor <;> intro h <;> linarith
  rw [forall_component, isOne]
  simp only [Bool.and_eq_true, ← each]
  rfl

def total (childScales : List Scale) (c : Component) : ℚ := (childScales.map (get · c)).sum

theorem total_nonneg (childScales : List Scale) (c : Component) : 0 ≤ total childScales c := by
  refine List.sum_nonneg fun x hx => ?_
  obtain ⟨scale, -, rfl⟩ := List.mem_map.mp hx
  exact (scale.get_mem c).1

@[simp] theorem total_cons (scale : Scale) (rest : List Scale) (c : Component) :
    total (scale :: rest) c = scale.get c + total rest c := by
  simp [total]

def SumsToOne (sum : Component → ℚ) : Prop := ∀ c, sum c ≤ 1 ∧ 1 - dblEpsilon < sum c

theorem sumsToOne_iff {totalSum : Scale} (positive : totalSum.Positive) (rest : List Scale) :
    totalSum.sumsToOne rest = true ↔
      SumsToOne fun c => totalSum.get c + total rest c := by
  induction rest generalizing totalSum with
  | nil =>
      rw [sumsToOne, isOne_iff]
      refine forall_congr' fun c => ?_
      have inside := (totalSum.get_mem c).2
      simp [total, inside]
  | cons scale rest ih =>
      rw [sumsToOne]
      by_cases fits : ∀ c, totalSum.get c + scale.get c ≤ 1
      · have added := get_add_of_le fits
        have positive' : (totalSum.add scale).Positive := by
          intro c
          rw [added]
          exact le_add_of_le_of_nonneg (positive c) (scale.get_mem c).1
        rw [isZero_eq_false_iff.mpr positive', if_neg Bool.false_ne_true, ih positive']
        simp only [SumsToOne, added, total_cons, add_assoc]
      · obtain ⟨c, exceeds⟩ := not_forall.mp fits
        have exceeds := not_le.mp exceeds
        have collapsed : (totalSum.add scale).isZero = true := by
          by_contra h
          have kept := isZero_eq_false_iff.mp (Bool.eq_false_iff.mpr h) c
          rw [get_add_of_lt exceeds] at kept
          exact absurd kept (by decide +kernel)
        rw [if_pos collapsed]
        refine iff_of_false Bool.false_ne_true fun sums => ?_
        have bound := (sums c).1
        dsimp only at bound
        rw [total_cons] at bound
        linarith [total_nonneg rest c]

end Scale

theorem acceptsScales_iff (first : Scale) (rest : List Scale) :
    acceptsScales (first :: rest) = true ↔
      first.Positive ∧ Scale.SumsToOne (Scale.total (first :: rest)) := by
  have fits (c : Component) : (Scale.ofProportion 0).get c + first.get c ≤ 1 := by
    rw [Scale.get_ofProportion_zero, zero_add]
    exact (first.get_mem c).2
  have added (c : Component) : ((Scale.ofProportion 0).add first).get c = first.get c := by
    rw [Scale.get_add_of_le fits, Scale.get_ofProportion_zero, zero_add]
  have positive : ((Scale.ofProportion 0).add first).Positive ↔ first.Positive :=
    forall_congr' fun c => by rw [added]
  rw [acceptsScales, Scale.sumsToOne]
  cases zero : ((Scale.ofProportion 0).add first).isZero with
  | true =>
      rw [if_pos rfl]
      refine iff_of_false Bool.false_ne_true fun h => ?_
      rw [Scale.isZero_eq_false_iff.mpr (positive.mpr h.1)] at zero
      cases zero
  | false =>
      have positive' := Scale.isZero_eq_false_iff.mp zero
      rw [if_neg Bool.false_ne_true, Scale.sumsToOne_iff positive',
        and_iff_right (positive.mp positive')]
      simp only [Scale.SumsToOne, added, Scale.total_cons]

def Complete (childScales : List Scale) : Prop := ∀ c, Scale.total childScales c = 1

/-- A list is accepted exactly when it makes up the whole, unless it does and begins with a child
that has none of some component, or has no such beginning and makes up almost the whole. -/
theorem acceptsScales_complete_iff (first : Scale) (rest : List Scale) :
    (acceptsScales (first :: rest) = true ↔ Complete (first :: rest)) ↔
      (Complete (first :: rest) → first.Positive) ∧
        (first.Positive → Scale.SumsToOne (Scale.total (first :: rest)) →
          Complete (first :: rest)) := by
  have whole (complete : Complete (first :: rest)) :
      Scale.SumsToOne (Scale.total (first :: rest)) := by
    intro c
    rw [complete c]
    exact ⟨le_rfl, by decide +kernel⟩
  rw [acceptsScales_iff]
  constructor
  · exact fun h => ⟨fun complete => (h.mpr complete).1,
      fun positive sums => h.mp ⟨positive, sums⟩⟩
  · rintro ⟨starts, only⟩
    exact ⟨fun h => only h.1 h.2, fun complete => ⟨starts complete, whole complete⟩⟩

/-- The first of two children gets no charge, and half of everything else. -/
theorem complete_not_accepted :
    ¬ (acceptsScales [.new 0 (1 / 2) (1 / 2) (1 / 2), .new 1 (1 / 2) (1 / 2) (1 / 2)] = true ↔
      Complete [.new 0 (1 / 2) (1 / 2) (1 / 2), .new 1 (1 / 2) (1 / 2) (1 / 2)]) := by
  intro h
  have complete : Complete
      [.new 0 (1 / 2) (1 / 2) (1 / 2), .new 1 (1 / 2) (1 / 2) (1 / 2)] := by
    rintro (_ | _ | _ | _) <;> decide +kernel
  exact absurd (h.mpr complete) (by decide +kernel)

end BatteryOS.V2
