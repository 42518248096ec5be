import BatteryOS.Library.OrderedSet

/-! Directed multigraphs kept as adjacency maps. A map stores for a node the list of its
neighbours, once for every edge between them, and no entry for a node without neighbours. A
graph that has to be walked both ways is stored twice, with the edges turned round in the
second map. -/

namespace OrderedMap

variable {κ β : Type*} [LinearOrder κ]

def set (m : OrderedMap κ β) (k : κ) (v : β) : OrderedMap κ β := (m.erase k).insert k v

theorem find?_set (m : OrderedMap κ β) (k k' : κ) (v : β) :
    (m.set k v).find? k' = if k' = k then some v else m.find? k' := by
  unfold set
  rw [find?_insert, find?_erase, find?_erase, if_pos rfl, Option.getD_none]
  split_ifs <;> rfl

section Sum

variable {M : Type*} [AddCommMonoid M] {m : OrderedMap κ β} {k : κ}

theorem sumBy_set_of_none (free : m.find? k = none) (v : β) (f : κ → β → M) :
    (m.set k v).sumBy f = f k v + m.sumBy f := by
  rw [set, erase_of_none free, sumBy_insert free]

theorem sumBy_set_of_some {u : β} (taken : m.find? k = some u) (v : β) (f : κ → β → M) :
    f k u + (m.set k v).sumBy f = f k v + m.sumBy f := by
  have free : (m.erase k).find? k = none := by rw [find?_erase, if_pos rfl]
  rw [set, sumBy_insert free, sumBy_erase taken, add_left_comm]

end Sum

end OrderedMap

abbrev Adjacency (κ : Type*) [LinearOrder κ] := OrderedMap κ (List κ)

namespace Adjacency

variable {κ : Type*} [LinearOrder κ]

def neighbours (g : Adjacency κ) (x : κ) : List κ := (g.find? x).getD []

def push (g : Adjacency κ) (x y : κ) : Adjacency κ := g.set x (g.neighbours x ++ [y])

/-- All edges from `x` to `y` taken away, and with the last of its edges the entry of `x`. -/
def drop (g : Adjacency κ) (x y : κ) : Adjacency κ :=
  match (g.neighbours x).filter (· ≠ y) with
  | [] => OrderedMap.erase g x
  | rest => g.set x rest

def NoEmpty (g : Adjacency κ) : Prop := ∀ x, g.find? x ≠ some []

/-- The second map has every edge of the first turned round, as often. -/
def Inverse (g h : Adjacency κ) : Prop :=
  ∀ x y, (g.neighbours x).count y = (h.neighbours y).count x

@[simp] theorem neighbours_empty (x : κ) : (∅ : Adjacency κ).neighbours x = [] := rfl

theorem neighbours_of_find? {g : Adjacency κ} {x : κ} {ys : List κ} (h : g.find? x = some ys) :
    g.neighbours x = ys := by
  rw [neighbours, h, Option.getD_some]

theorem neighbours_of_none {g : Adjacency κ} {x : κ} (h : g.find? x = none) :
    g.neighbours x = [] := by
  rw [neighbours, h, Option.getD_none]

theorem neighbours_set (g : Adjacency κ) (x z : κ) (ys : List κ) :
    Adjacency.neighbours (g.set x ys) z = if z = x then ys else g.neighbours z := by
  unfold neighbours
  rw [OrderedMap.find?_set]
  split_ifs <;> rfl

theorem neighbours_push (g : Adjacency κ) (x y z : κ) :
    (g.push x y).neighbours z = if z = x then g.neighbours x ++ [y] else g.neighbours z :=
  neighbours_set g x z _

theorem neighbours_erase (g : Adjacency κ) (x z : κ) :
    Adjacency.neighbours (OrderedMap.erase g x) z = if z = x then [] else g.neighbours z := by
  unfold neighbours
  rw [OrderedMap.find?_erase]
  split_ifs <;> rfl

theorem neighbours_drop (g : Adjacency κ) (x y z : κ) :
    (g.drop x y).neighbours z =
      if z = x then (g.neighbours x).filter (· ≠ y) else g.neighbours z := by
  unfold drop
  split
  · next empty => rw [neighbours_erase, empty]
  · rw [neighbours_set]

theorem neighbours_insert_nil (g : Adjacency κ) (x z : κ) :
    Adjacency.neighbours (OrderedMap.insert g x []) z = g.neighbours z := by
  unfold neighbours
  rw [OrderedMap.find?_insert]
  split_ifs with same
  · rw [same, Option.getD_some]
  · rfl

theorem NoEmpty.find?_eq_none {g : Adjacency κ} (h : g.NoEmpty) {x : κ} :
    g.find? x = none ↔ g.neighbours x = [] := by
  refine ⟨neighbours_of_none, fun none => ?_⟩
  cases stored : g.find? x with
  | none => rfl
  | some ys =>
      rw [neighbours_of_find? stored] at none
      exact absurd (none ▸ stored) (h x)

theorem noEmpty_empty : NoEmpty (∅ : Adjacency κ) := fun _ h => by cases h

theorem NoEmpty.push {g : Adjacency κ} (h : g.NoEmpty) (x y : κ) : (g.push x y).NoEmpty := by
  intro z
  unfold Adjacency.push
  rw [OrderedMap.find?_set]
  split_ifs
  · simp
  · exact h z

theorem NoEmpty.erase {g : Adjacency κ} (h : g.NoEmpty) (x : κ) :
    NoEmpty (OrderedMap.erase g x) := by
  intro z
  rw [OrderedMap.find?_erase]
  split_ifs
  · exact Option.some_ne_none _ |>.symm
  · exact h z

theorem NoEmpty.drop {g : Adjacency κ} (h : g.NoEmpty) (x y : κ) : (g.drop x y).NoEmpty := by
  unfold Adjacency.drop
  split
  · exact h.erase x
  · next nonempty =>
      intro z
      rw [OrderedMap.find?_set]
      split_ifs
      · exact fun e => nonempty (Option.some.inj e)
      · exact h z

theorem inverse_empty : Inverse (∅ : Adjacency κ) ∅ := fun _ _ => rfl

theorem Inverse.push {g h : Adjacency κ} (inv : Inverse g h) (x y : κ) :
    Inverse (g.push x y) (h.push y x) := by
  intro a b
  have := inv a b
  rw [neighbours_push, neighbours_push]
  split_ifs with ha hb hb
  · subst ha hb
    simp [this]
  · subst ha
    simp [this, Ne.symm hb]
  · subst hb
    simp [this, Ne.symm ha]
  · exact this

theorem Inverse.mem_iff {g h : Adjacency κ} (inv : Inverse g h) {x y : κ} :
    y ∈ g.neighbours x ↔ x ∈ h.neighbours y := by
  rw [← List.count_pos_iff, ← List.count_pos_iff, inv]

theorem neighbours_foldl_drop (y : κ) (xs : List κ) (g : Adjacency κ) (z : κ) :
    (xs.foldl (fun g x => g.drop x y) g).neighbours z =
      if z ∈ xs then (g.neighbours z).filter (· ≠ y) else g.neighbours z := by
  induction xs generalizing g with
  | nil => simp
  | cons x rest ih =>
      rw [List.foldl_cons, ih, neighbours_drop]
      by_cases here : z = x <;> by_cases later : z ∈ rest <;> simp [here, later, List.filter_filter]

theorem NoEmpty.foldl_drop {g : Adjacency κ} (h : g.NoEmpty) (y : κ) (xs : List κ) :
    NoEmpty (xs.foldl (fun g x => g.drop x y) g) := by
  induction xs generalizing g with
  | nil => exact h
  | cons x rest ih => exact ih (h.drop x y)

theorem Inverse.neighbours_foldl_drop {g h : Adjacency κ} (inv : Inverse g h) (y z : κ) :
    ((h.neighbours y).foldl (fun g x => g.drop x y) g).neighbours z =
      (g.neighbours z).filter (· ≠ y) := by
  rw [Adjacency.neighbours_foldl_drop]
  split_ifs with source
  · rfl
  · refine (List.filter_eq_self.mpr fun a ha => ?_).symm
    simp only [ne_eq, decide_not, Bool.not_eq_eq_eq_not, Bool.not_true, decide_eq_false_iff_not]
    rintro rfl
    exact source (inv.mem_iff.mp ha)

theorem Inverse.remove {g h : Adjacency κ} (inv : Inverse g h) {y : κ}
    (last : g.neighbours y = []) :
    Inverse ((h.neighbours y).foldl (fun g x => g.drop x y) g) (OrderedMap.erase h y) := by
  intro a b
  rw [inv.neighbours_foldl_drop, neighbours_erase]
  split_ifs with same
  · subst same
    rw [List.count_nil, List.count_eq_zero]
    simp
  · rw [List.count_filter (by simpa using same), inv]

end Adjacency
