import Mathlib.Algebra.BigOperators.Group.Finset.Basic
import Mathlib.Algebra.BigOperators.Fin
import Mathlib.Algebra.Order.BigOperators.Group.LocallyFinite
import Mathlib.Order.Interval.Finset.Fin
import Mathlib.Algebra.Order.Group.Unbundled.Basic
import Mathlib.Tactic.Abel

/-! Pouring an amount into slots, one after the other. A slot that would hold too much is left with
its bound and passes the rest on; the first that would not takes all of it. The slots and what is
left together stay the same, and which slot takes the rest can be said beforehand. -/

namespace Spill

variable {ι σ A : Type*} [AddCommGroup A]

/-- How a slot takes from an amount: what it holds, when it would hold too much, and what it holds
then. -/
structure Rule (σ A : Type*) where
  amount : σ → A
  withAmount : σ → A → σ
  exceeds : σ → A → Bool
  bound : σ → A
  amount_withAmount : ∀ slot held, amount (withAmount slot held) = held

/-- The slots, what is left over, and whether one of them has taken the rest. -/
structure Poured (ι σ A : Type*) where
  slots : ι → σ
  left : A
  settled : Bool

def pour [DecidableEq ι] (rule : Rule σ A) : List ι → (ι → σ) → A → Poured ι σ A
  | [], slots, left => ⟨slots, left, false⟩
  | i :: rest, slots, left =>
    let slot := slots i
    let held := rule.amount slot
    if rule.exceeds slot (held + left) then
      pour rule rest (Function.update slots i (rule.withAmount slot (rule.bound slot)))
        (left + (held - rule.bound slot))
    else ⟨Function.update slots i (rule.withAmount slot (held + left)), 0, true⟩

variable {rule : Rule σ A} {order before after : List ι} {slots : ι → σ} {left : A} {i j : ι}

section Pour

variable [DecidableEq ι]

theorem pour_cons_of_exceeds (h : rule.exceeds (slots i) (rule.amount (slots i) + left) = true) :
    pour rule (i :: after) slots left =
      pour rule after (Function.update slots i (rule.withAmount (slots i) (rule.bound (slots i))))
        (left + (rule.amount (slots i) - rule.bound (slots i))) := by
  rw [pour, if_pos h]

theorem pour_cons_of_not_exceeds
    (h : rule.exceeds (slots i) (rule.amount (slots i) + left) = false) :
    pour rule (i :: after) slots left =
      ⟨Function.update slots i (rule.withAmount (slots i) (rule.amount (slots i) + left)), 0,
        true⟩ := by
  rw [pour, if_neg (by simp [h])]

theorem left_of_settled (h : (pour rule order slots left).settled = true) :
    (pour rule order slots left).left = 0 := by
  induction order generalizing slots left with
  | nil => cases h
  | cons i rest ih =>
      cases full : rule.exceeds (slots i) (rule.amount (slots i) + left) with
      | true =>
          rw [pour_cons_of_exceeds full] at h ⊢
          exact ih h
      | false => rw [pour_cons_of_not_exceeds full]

theorem ite_mem_cons_update {β : Type*} {f : σ → β} (written : ι → β) {slot : σ} {rest : List ι}
    (here : f slot = written i) :
    (if j ∈ rest then written j else f (Function.update slots i slot j)) =
      if j ∈ i :: rest then written j else f (slots j) := by
  by_cases later : j ∈ rest
  · rw [if_pos later, if_pos (List.mem_cons_of_mem _ later)]
  · rw [if_neg later, Function.update_apply]
    by_cases same : j = i
    · rw [if_pos same, if_pos (same ▸ List.mem_cons_self), here, same]
    · rw [if_neg same, if_neg (List.not_mem_cons_of_ne_of_not_mem same later)]

theorem slots_congr {β : Type*} {f : σ → β}
    (untouched : ∀ slot held, f (rule.withAmount slot held) = f slot) (j : ι) :
    f ((pour rule order slots left).slots j) = f (slots j) := by
  have update (slots : ι → σ) (i : ι) (held : A) :
      f (Function.update slots i (rule.withAmount (slots i) held) j) = f (slots j) := by
    rw [Function.update_apply]
    split_ifs with same
    · rw [untouched, same]
    · rfl
  induction order generalizing slots left with
  | nil => rfl
  | cons i rest ih =>
      cases full : rule.exceeds (slots i) (rule.amount (slots i) + left) with
      | true =>
          rw [pour_cons_of_exceeds full, ih]
          exact update slots i _
      | false =>
          rw [pour_cons_of_not_exceeds full]
          exact update slots i _

theorem slots_of_notMem (h : j ∉ order) : (pour rule order slots left).slots j = slots j := by
  induction order generalizing slots left with
  | nil => rfl
  | cons i rest ih =>
      obtain ⟨ne, later⟩ := not_or.mp (List.mem_cons.not.mp h)
      cases full : rule.exceeds (slots i) (rule.amount (slots i) + left) with
      | true => rw [pour_cons_of_exceeds full, ih later, Function.update_of_ne ne]
      | false =>
          rw [pour_cons_of_not_exceeds full]
          exact Function.update_of_ne ne _ _

theorem pour_append : pour rule (before ++ after) slots left =
    if (pour rule before slots left).settled then pour rule before slots left
    else pour rule after (pour rule before slots left).slots
      (pour rule before slots left).left := by
  induction before generalizing slots left with
  | nil => rfl
  | cons i rest ih =>
      rw [List.cons_append]
      cases full : rule.exceeds (slots i) (rule.amount (slots i) + left) with
      | true => rw [pour_cons_of_exceeds full, pour_cons_of_exceeds full, ih]
      | false => rw [pour_cons_of_not_exceeds full, pour_cons_of_not_exceeds full, if_pos rfl]

section Total

variable [Fintype ι]

theorem sum_update (f : σ → A) (slots : ι → σ) (i : ι) (slot : σ) :
    ∑ j, f (Function.update slots i slot j) = ∑ j, f (slots j) + (f slot - f (slots i)) := by
  have others : ∑ j ∈ Finset.univ.erase i, f (Function.update slots i slot j) =
      ∑ j ∈ Finset.univ.erase i, f (slots j) :=
    Finset.sum_congr rfl fun j hj => by rw [Function.update_of_ne (Finset.ne_of_mem_erase hj)]
  rw [← Finset.add_sum_erase _ _ (Finset.mem_univ i), others, Function.update_self,
    ← Finset.add_sum_erase Finset.univ (fun j => f (slots j)) (Finset.mem_univ i)]
  abel

variable (rule order slots left) in
theorem sum_pour : ∑ j, rule.amount ((pour rule order slots left).slots j) +
    (pour rule order slots left).left = ∑ j, rule.amount (slots j) + left := by
  induction order generalizing slots left with
  | nil => rfl
  | cons i rest ih =>
      cases full : rule.exceeds (slots i) (rule.amount (slots i) + left) with
      | true =>
          rw [pour_cons_of_exceeds full, ih, sum_update, rule.amount_withAmount]
          abel
      | false =>
          rw [pour_cons_of_not_exceeds full]
          dsimp only
          rw [sum_update, rule.amount_withAmount]
          abel

end Total

/-! ### Which slot takes the rest -/

def carried (rule : Rule σ A) (slots : ι → σ) (left : A) (before : List ι) : A :=
  left + (before.map fun j => rule.amount (slots j) - rule.bound (slots j)).sum

omit [DecidableEq ι] in
theorem carried_cons : carried rule slots left (i :: before) =
    carried rule slots (left + (rule.amount (slots i) - rule.bound (slots i))) before := by
  rw [carried, carried, List.map_cons, List.sum_cons, add_assoc]

theorem carried_update (h : i ∉ before) (slot : σ) :
    carried rule (Function.update slots i slot) left before = carried rule slots left before := by
  have same : ∀ j ∈ before, Function.update slots i slot j = slots j := fun j hj =>
    Function.update_of_ne (fun same : j = i => h (same ▸ hj)) _ _
  rw [carried, carried, List.map_congr_left fun j hj => by rw [same j hj]]

theorem left_of_not_settled (distinct : before.Nodup)
    (h : (pour rule before slots left).settled = false) :
    (pour rule before slots left).left = carried rule slots left before := by
  induction before generalizing slots left with
  | nil => simp [pour, carried]
  | cons i rest ih =>
      obtain ⟨fresh, distinct⟩ := List.nodup_cons.mp distinct
      cases full : rule.exceeds (slots i) (rule.amount (slots i) + left) with
      | true =>
          rw [pour_cons_of_exceeds full] at h ⊢
          rw [ih distinct h, carried_update fresh, carried_cons]
      | false =>
          rw [pour_cons_of_not_exceeds full] at h
          cases h

/-- One of the slots takes the rest exactly when there is one that would not hold too much of what
the slots before it have passed on. -/
theorem settled_iff (distinct : order.Nodup) : (pour rule order slots left).settled = true ↔
    ∃ before i after, order = before ++ i :: after ∧
      rule.exceeds (slots i) (rule.amount (slots i) + carried rule slots left before) = false := by
  induction order generalizing slots left with
  | nil => simp [pour]
  | cons i rest ih =>
      obtain ⟨fresh, distinct⟩ := List.nodup_cons.mp distinct
      cases full : rule.exceeds (slots i) (rule.amount (slots i) + left) with
      | true =>
          rw [pour_cons_of_exceeds full, ih distinct]
          constructor
          · rintro ⟨before, j, after, rfl, room⟩
            have apart : i ∉ before := fun h => fresh (List.mem_append_left _ h)
            have ne : j ≠ i := fun same => fresh (same ▸ List.mem_append_right _ List.mem_cons_self)
            rw [Function.update_of_ne ne, carried_update apart, ← carried_cons] at room
            exact ⟨i :: before, j, after, rfl, room⟩
          · rintro ⟨before, j, after, split, room⟩
            cases before with
            | nil =>
                obtain ⟨rfl, -⟩ := List.cons.inj split
                simp [carried, full] at room
            | cons _ before =>
                obtain ⟨rfl, rfl⟩ := List.cons.inj split
                have apart : i ∉ before := fun h => fresh (List.mem_append_left _ h)
                have ne : j ≠ i :=
                  fun same => fresh (same ▸ List.mem_append_right _ List.mem_cons_self)
                refine ⟨before, j, after, rfl, ?_⟩
                rwa [Function.update_of_ne ne, carried_update apart, ← carried_cons]
      | false =>
          rw [pour_cons_of_not_exceeds full]
          exact iff_of_true rfl ⟨[], i, rest, rfl, by simpa [carried] using full⟩

theorem amount_pour (distinct : (before ++ i :: after).Nodup) :
    rule.amount ((pour rule (before ++ i :: after) slots left).slots i) =
      if (pour rule before slots left).settled then rule.amount (slots i)
      else if rule.exceeds (slots i) (rule.amount (slots i) + carried rule slots left before) then
        rule.bound (slots i)
      else rule.amount (slots i) + carried rule slots left before := by
  obtain ⟨distinctBefore, distinctAfter, apart⟩ := List.nodup_append.mp distinct
  have fresh : i ∉ before := fun h => apart i h i List.mem_cons_self rfl
  have later : i ∉ after := (List.nodup_cons.mp distinctAfter).1
  rw [pour_append]
  cases settled : (pour rule before slots left).settled with
  | true =>
      rw [if_pos rfl, if_pos rfl, slots_of_notMem fresh]
  | false =>
      have same : (pour rule before slots left).slots i = slots i := slots_of_notMem fresh
      rw [if_neg Bool.false_ne_true, if_neg Bool.false_ne_true,
        left_of_not_settled distinctBefore settled]
      cases full : rule.exceeds (slots i)
          (rule.amount (slots i) + carried rule slots left before) with
      | true =>
          rw [pour_cons_of_exceeds (by rw [same, full]), slots_of_notMem later,
            Function.update_self, rule.amount_withAmount, same, if_pos rfl]
      | false =>
          rw [pour_cons_of_not_exceeds (by rw [same, full])]
          dsimp only
          rw [Function.update_self, rule.amount_withAmount, same, if_neg Bool.false_ne_true]

end Pour

/-! ### From the last slot down to the first -/

section Descending

structure Descending [LT ι] (order : List ι) : Prop where
  sorted : order.Pairwise (· > ·)
  complete : ∀ i, i ∈ order

variable [LinearOrder ι]

theorem Descending.nodup (h : Descending order) : order.Nodup := h.sorted.imp fun gt => gt.ne'

theorem Descending.exists_split (h : Descending order) (i : ι) :
    ∃ before after, order = before ++ i :: after :=
  List.append_of_mem (h.complete i)

theorem Descending.mem_before (h : Descending (before ++ i :: after)) : j ∈ before ↔ i < j := by
  obtain ⟨-, sortedAfter, apart⟩ := List.pairwise_append.mp h.sorted
  constructor
  · exact fun hj => apart j hj i List.mem_cons_self
  · intro above
    rcases List.mem_append.mp (h.complete j) with hj | hj
    · exact hj
    · rcases List.mem_cons.mp hj with rfl | hj
      · exact absurd above (lt_irrefl _)
      · exact absurd ((List.pairwise_cons.mp sortedAfter).1 j hj) above.not_gt

variable [Fintype ι] [LocallyFiniteOrderBot ι] [LocallyFiniteOrderTop ι] {total : A}

omit [Fintype ι] [LocallyFiniteOrderBot ι] in
theorem Descending.sum_before (h : Descending (before ++ i :: after)) (f : ι → A) :
    (before.map f).sum = ∑ j ∈ Finset.Ioi i, f j := by
  have members : before.toFinset = Finset.Ioi i := by
    ext j
    rw [List.mem_toFinset, Finset.mem_Ioi, h.mem_before]
  rw [← members, List.sum_toFinset f (List.nodup_append.mp h.nodup).1]

theorem sum_split (f : ι → A) (i : ι) :
    ∑ j, f j = ∑ j ∈ Finset.Iio i, f j + f i + ∑ j ∈ Finset.Ioi i, f j := by
  rw [← Finset.sum_compl_add_sum {i} f, ← Finset.Ioi_disjUnion_Iio, Finset.sum_disjUnion,
    Finset.sum_singleton]
  abel

/-- What a slot would hold of a total, were those before it to keep what they have and those after
it to be left with their bounds. -/
def remaining (rule : Rule σ A) (slots : ι → σ) (total : A) (i : ι) : A :=
  total - ∑ j ∈ Finset.Iio i, rule.amount (slots j) - ∑ j ∈ Finset.Ioi i, rule.bound (slots j)

theorem Descending.amount_add_carried (h : Descending (before ++ i :: after))
    (whole : ∑ j, rule.amount (slots j) + left = total) :
    rule.amount (slots i) + carried rule slots left before = remaining rule slots total i := by
  rw [carried, h.sum_before, remaining, ← whole, sum_split _ i, Finset.sum_sub_distrib]
  abel

def Room (rule : Rule σ A) (slots : ι → σ) (total : A) (i : ι) : Prop :=
  rule.exceeds (slots i) (remaining rule slots total i) = false

instance : Decidable (Room rule slots total i) := inferInstanceAs (Decidable (_ = false))

variable (rule) in
theorem Descending.settled_iff (h : Descending order)
    (whole : ∑ j, rule.amount (slots j) + left = total) :
    (pour rule order slots left).settled = true ↔ ∃ i, Room rule slots total i := by
  rw [Spill.settled_iff h.nodup]
  constructor
  · rintro ⟨before, i, after, rfl, room⟩
    exact ⟨i, by rwa [Room, ← h.amount_add_carried whole]⟩
  · rintro ⟨i, room⟩
    obtain ⟨before, after, rfl⟩ := h.exists_split i
    exact ⟨before, i, after, rfl, by rwa [h.amount_add_carried whole]⟩

theorem Descending.settled_before_iff (h : Descending (before ++ i :: after))
    (whole : ∑ j, rule.amount (slots j) + left = total) :
    (pour rule before slots left).settled = true ↔ ∃ k, i < k ∧ Room rule slots total k := by
  rw [Spill.settled_iff (List.nodup_append.mp h.nodup).1]
  constructor
  · rintro ⟨first, k, rest, rfl, room⟩
    rw [List.append_assoc, List.cons_append] at h
    refine ⟨k, ?_, by rwa [Room, ← h.amount_add_carried whole]⟩
    have later := (List.pairwise_cons.mp (List.pairwise_append.mp h.sorted).2.1).1
    exact later i (List.mem_append_right _ List.mem_cons_self)
  · rintro ⟨k, above, room⟩
    obtain ⟨first, rest, rfl⟩ := List.append_of_mem (h.mem_before.mpr above)
    rw [List.append_assoc, List.cons_append] at h
    exact ⟨first, k, rest, rfl, by rwa [h.amount_add_carried whole]⟩

variable (rule) in
theorem Descending.amount_pour (h : Descending order)
    (whole : ∑ j, rule.amount (slots j) + left = total) (i : ι) :
    rule.amount ((pour rule order slots left).slots i) =
      if ∃ k, i < k ∧ Room rule slots total k then rule.amount (slots i)
      else if Room rule slots total i then remaining rule slots total i
      else rule.bound (slots i) := by
  obtain ⟨before, after, rfl⟩ := h.exists_split i
  rw [Spill.amount_pour h.nodup, h.amount_add_carried whole,
    if_congr (h.settled_before_iff whole) rfl rfl]
  cases full : rule.exceeds (slots i) (remaining rule slots total i) <;> simp [Room, full]

/-! When the bound is the most that a slot may hold, or the least. -/

omit [Fintype ι] in
theorem room_iff_le [LinearOrder A] [IsOrderedAddMonoid A]
    (ceiling : ∀ slot held, rule.exceeds slot held = decide (rule.bound slot < held)) (i : ι) :
    Room rule slots total i ↔ total ≤
      ∑ j ∈ Finset.Iio i, rule.amount (slots j) + ∑ j ∈ Finset.Ici i, rule.bound (slots j) := by
  rw [Room, ceiling, decide_eq_false_iff_not, not_lt, remaining, sub_le_iff_le_add,
    sub_le_iff_le_add', ← Finset.add_sum_Ioi_eq_sum_Ici i]

omit [Fintype ι] in
theorem room_iff_ge [LinearOrder A] [IsOrderedAddMonoid A]
    (floor : ∀ slot held, rule.exceeds slot held = decide (held < rule.bound slot)) (i : ι) :
    Room rule slots total i ↔
      ∑ j ∈ Finset.Iio i, rule.amount (slots j) + ∑ j ∈ Finset.Ici i, rule.bound (slots j) ≤
        total := by
  rw [Room, floor, decide_eq_false_iff_not, not_lt, remaining, le_sub_iff_add_le,
    le_sub_iff_add_le', ← Finset.add_sum_Ioi_eq_sum_Ici i]

end Descending

theorem descending_finRange (n : ℕ) : Descending (List.finRange n).reverse where
  sorted := List.pairwise_reverse.mpr (List.pairwise_lt_finRange n)
  complete i := List.mem_reverse.mpr (List.mem_finRange i)

end Spill
