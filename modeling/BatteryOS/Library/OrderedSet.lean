import Mathlib

/-! Finite sets and maps kept in the order of a key. Two elements with one key
are the same element to the set, whatever else they carry: an insertion at a key
that is taken changes nothing and an erasure goes by the key of its argument.
Order is carried by the structure, so two sets with the same members are equal. -/

structure OrderedSet {α κ : Type*} [LinearOrder κ] (key : α → κ) where
  elems : List α
  sorted : elems.Pairwise (fun x y => key x < key y)

namespace OrderedSet

variable {α κ : Type*} [LinearOrder κ] {key : α → κ}

instance : Membership α (OrderedSet key) := ⟨fun s x => x ∈ s.elems⟩

instance [DecidableEq α] (x : α) (s : OrderedSet key) : Decidable (x ∈ s) :=
  inferInstanceAs (Decidable (x ∈ s.elems))

instance (s : OrderedSet key) (p : α → Prop) [DecidablePred p] : Decidable (∀ x ∈ s, p x) :=
  inferInstanceAs (Decidable (∀ x ∈ s.elems, p x))

instance (s : OrderedSet key) (p : α → Prop) [DecidablePred p] : Decidable (∃ x ∈ s, p x) :=
  inferInstanceAs (Decidable (∃ x ∈ s.elems, p x))

def empty : OrderedSet key := ⟨[], List.Pairwise.nil⟩

instance : EmptyCollection (OrderedSet key) := ⟨empty⟩

def insertElems (key : α → κ) (x : α) : List α → List α
  | [] => [x]
  | y :: ys =>
      if key x < key y then x :: y :: ys
      else if key y < key x then y :: insertElems key x ys
      else y :: ys

theorem mem_of_mem_insertElems {x y : α} {xs : List α} (h : y ∈ insertElems key x xs) :
    y = x ∨ y ∈ xs := by
  induction xs with
  | nil => simpa [insertElems] using h
  | cons z zs ih =>
      simp only [insertElems] at h
      split_ifs at h <;> grind

theorem insertElems_sorted (x : α) {xs : List α}
    (h : xs.Pairwise (fun x y => key x < key y)) :
    (insertElems key x xs).Pairwise (fun x y => key x < key y) := by
  induction xs with
  | nil => simp [insertElems]
  | cons z zs ih =>
      have hz : ∀ y ∈ zs, key z < key y := fun _ => List.rel_of_pairwise_cons h
      simp only [insertElems]
      split_ifs with hlt hgt
      · refine h.cons fun y hy => ?_
        rcases List.mem_cons.mp hy with rfl | hy
        · exact hlt
        · exact hlt.trans (hz y hy)
      · refine (ih h.of_cons).cons fun y hy => ?_
        rcases mem_of_mem_insertElems hy with rfl | hy
        · exact hgt
        · exact hz y hy
      · exact h

theorem mem_insertElems {x y : α} {xs : List α}
    (h : xs.Pairwise (fun x y => key x < key y)) :
    y ∈ insertElems key x xs ↔ y ∈ xs ∨ y = x ∧ ∀ z ∈ xs, key z ≠ key x := by
  induction xs with
  | nil => simp [insertElems]
  | cons w ws ih =>
      have hw : ∀ z ∈ ws, key w < key z := fun _ => List.rel_of_pairwise_cons h
      have rest := ih h.of_cons
      simp only [insertElems]
      split_ifs with hlt hgt
      · have fresh : ∀ z ∈ w :: ws, key z ≠ key x := by
          intro z hz
          rcases List.mem_cons.mp hz with rfl | hz
          · exact hlt.ne'
          · exact (hlt.trans (hw z hz)).ne'
        rw [List.mem_cons]
        exact ⟨fun hy => hy.elim (fun e => .inr ⟨e, fresh⟩) .inl,
          fun hy => hy.elim .inr (fun e => .inl e.1)⟩
      · rw [List.mem_cons, rest, List.mem_cons, or_assoc, List.forall_mem_cons]
        simp only [hgt.ne, ne_eq, not_false_eq_true, true_and]
      · have same : key w = key x := le_antisymm (not_lt.mp hlt) (not_lt.mp hgt)
        simp [same]

def insert (s : OrderedSet key) (x : α) : OrderedSet key :=
  ⟨insertElems key x s.elems, insertElems_sorted x s.sorted⟩

def erase (s : OrderedSet key) (x : α) : OrderedSet key :=
  ⟨s.elems.filter (fun y => key y ≠ key x), s.sorted.filter _⟩

def begin (s : OrderedSet key) : Option α := s.elems.head?

/-- The element after `x` in the order, whether or not `x` is itself a member. -/
def next (s : OrderedSet key) (x : α) : Option α := s.elems.find? (fun y => key x < key y)

theorem mem_def {x : α} {s : OrderedSet key} : x ∈ s ↔ x ∈ s.elems := Iff.rfl

@[simp] theorem not_mem_empty (x : α) : x ∉ (∅ : OrderedSet key) := List.not_mem_nil

@[grind =] theorem mem_insert {x y : α} {s : OrderedSet key} :
    y ∈ s.insert x ↔ y ∈ s ∨ y = x ∧ ∀ z ∈ s, key z ≠ key x :=
  mem_insertElems s.sorted

@[grind =] theorem mem_erase {x y : α} {s : OrderedSet key} :
    y ∈ s.erase x ↔ y ∈ s ∧ key y ≠ key x := by
  simp [mem_def, erase]

theorem eq_of_key_eq {x y : α} {s : OrderedSet key} (hx : x ∈ s) (hy : y ∈ s)
    (h : key x = key y) : x = y := by
  by_contra different
  have symm : Std.Symm (fun x y : α => key x ≠ key y) := ⟨fun _ _ hab => hab.symm⟩
  have apart : s.elems.Pairwise (fun x y => key x ≠ key y) := s.sorted.imp fun hlt => hlt.ne
  exact apart.forall hx hy different h

theorem ext {s t : OrderedSet key} (h : ∀ x, x ∈ s ↔ x ∈ t) : s = t := by
  obtain ⟨xs, hxs⟩ := s
  obtain ⟨ys, hys⟩ := t
  have nodup : ∀ {zs : List α}, zs.Pairwise (fun x y => key x < key y) → zs.Nodup :=
    fun hz => hz.imp fun hlt e => hlt.ne (congrArg key e)
  have perm : xs.Perm ys := (List.perm_ext_iff_of_nodup (nodup hxs) (nodup hys)).mpr h
  have same : xs = ys := perm.eq_of_pairwise (fun _ _ _ _ hab hba => absurd hab hba.asymm) hxs hys
  subst same
  rfl

theorem begin_eq_none {s : OrderedSet key} : s.begin = none ↔ ∀ x, x ∉ s := by
  simp [begin, mem_def, List.head?_eq_none_iff, List.eq_nil_iff_forall_not_mem]

theorem begin_eq_some {s : OrderedSet key} {x : α} (h : s.begin = some x) :
    x ∈ s ∧ ∀ y ∈ s, key x ≤ key y := by
  obtain ⟨xs, hxs⟩ := s
  cases xs with
  | nil => simp [begin] at h
  | cons z zs =>
      obtain rfl : z = x := by simpa [begin] using h
      refine ⟨List.mem_cons_self, fun y hy => ?_⟩
      rcases List.mem_cons.mp hy with rfl | hy
      · exact le_rfl
      · exact (List.rel_of_pairwise_cons hxs hy).le

theorem next_eq_none {s : OrderedSet key} {x : α} :
    s.next x = none ↔ ∀ y ∈ s, key y ≤ key x := by
  simp [next, mem_def]

theorem next_eq_some {s : OrderedSet key} {x y : α} (h : s.next x = some y) :
    y ∈ s ∧ key x < key y ∧ ∀ z ∈ s, key x < key z → key y ≤ key z := by
  obtain ⟨hy, before, after, split, hbefore⟩ := List.find?_eq_some_iff_append.mp h
  have hlt : key x < key y := by simpa using hy
  have hsorted := s.sorted
  rw [split, List.pairwise_append] at hsorted
  refine ⟨?_, hlt, fun z hz hxz => ?_⟩
  · rw [mem_def, split]
    simp
  · rw [mem_def, split, List.mem_append, List.mem_cons] at hz
    rcases hz with hz | rfl | hz
    · have := hbefore z hz
      simp [hxz] at this
    · exact le_rfl
    · exact (List.rel_of_pairwise_cons hsorted.2.1 hz).le

theorem begin_eq_some_iff {s : OrderedSet key} {x : α} :
    s.begin = some x ↔ x ∈ s ∧ ∀ y ∈ s, key x ≤ key y := by
  refine ⟨begin_eq_some, fun ⟨hx, first⟩ => ?_⟩
  cases hbegin : s.begin with
  | none => exact absurd hx (begin_eq_none.mp hbegin x)
  | some y =>
      obtain ⟨hy, least⟩ := begin_eq_some hbegin
      rw [eq_of_key_eq hy hx (le_antisymm (least x hx) (first y hy))]

theorem next_congr {s t : OrderedSet key} {x : α}
    (later : ∀ y, key x < key y → (y ∈ s ↔ y ∈ t)) : s.next x = t.next x := by
  cases hs : s.next x with
  | none =>
      refine (next_eq_none.mpr fun y hy => not_lt.mp fun hlt => ?_).symm
      exact absurd hlt (not_lt.mpr (next_eq_none.mp hs y ((later y hlt).mpr hy)))
  | some y =>
      obtain ⟨hy, hlt, first⟩ := next_eq_some hs
      cases ht : t.next x with
      | none => exact absurd hlt (not_lt.mpr (next_eq_none.mp ht y ((later y hlt).mp hy)))
      | some z =>
          obtain ⟨hz, hlt', first'⟩ := next_eq_some ht
          have hz' := (later z hlt').mpr hz
          rw [eq_of_key_eq hy hz' (le_antisymm (first z hz' hlt')
            (first' y ((later y hlt).mp hy) hlt))]

theorem insert_elems_perm {s : OrderedSet key} {x : α} (free : ∀ y ∈ s, key y ≠ key x) :
    (s.insert x).elems.Perm (x :: s.elems) := by
  have grow : ∀ ys : List α, (∀ y ∈ ys, key y ≠ key x) →
      (insertElems key x ys).Perm (x :: ys) := by
    intro ys hys
    induction ys with
    | nil => exact .refl _
    | cons z zs ih =>
        simp only [insertElems]
        split_ifs with hlt hgt
        · exact .refl _
        · exact ((ih fun y hy => hys y (List.mem_cons_of_mem z hy)).cons z).trans (.swap _ _ _)
        · exact absurd (le_antisymm (not_lt.mp hlt) (not_lt.mp hgt)) (hys z List.mem_cons_self)
  exact grow s.elems free

theorem insert_of_taken {s : OrderedSet key} {x y : α} (hy : y ∈ s) (h : key y = key x) :
    s.insert x = s :=
  ext fun _ => mem_insert.trans (or_iff_left fun hz => hz.2 y hy h)

end OrderedSet

abbrev OrderedMap (κ β : Type*) [LinearOrder κ] := OrderedSet (Prod.fst : κ × β → κ)

namespace OrderedMap

variable {κ β : Type*} [LinearOrder κ]

def find? (m : OrderedMap κ β) (k : κ) : Option β :=
  (m.elems.find? (fun p => p.1 = k)).map Prod.snd

def keys (m : OrderedMap κ β) : List κ := m.elems.map Prod.fst

def insert (m : OrderedMap κ β) (k : κ) (v : β) : OrderedMap κ β := OrderedSet.insert m (k, v)

def erase (m : OrderedMap κ β) (k : κ) : OrderedMap κ β :=
  ⟨m.elems.filter (fun p => p.1 ≠ k), m.sorted.filter _⟩

/-- Read and write at a key that is there; a key that is not stays absent. -/
def modify (m : OrderedMap κ β) (k : κ) (f : β → β) : OrderedMap κ β :=
  ⟨m.elems.map (fun p => if p.1 = k then (k, f p.2) else p),
    List.pairwise_map.mpr (m.sorted.imp fun h => by split_ifs <;> simp_all)⟩

theorem find?_eq_some {m : OrderedMap κ β} {k : κ} {v : β} :
    m.find? k = some v ↔ (k, v) ∈ m := by
  constructor
  · intro h
    obtain ⟨⟨k', v'⟩, hp, rfl⟩ := Option.map_eq_some_iff.mp h
    obtain rfl : k' = k := by simpa using List.find?_some hp
    exact List.mem_of_find?_eq_some hp
  · intro h
    obtain ⟨p, hp⟩ : ∃ p, m.elems.find? (fun p => p.1 = k) = some p :=
      Option.isSome_iff_exists.mp (List.find?_isSome.mpr ⟨(k, v), h, by simp⟩)
    have hk : p.1 = k := by simpa using List.find?_some hp
    have same : p = (k, v) := OrderedSet.eq_of_key_eq (List.mem_of_find?_eq_some hp) h hk
    rw [find?, hp, same, Option.map_some]

theorem find?_eq_none {m : OrderedMap κ β} {k : κ} :
    m.find? k = none ↔ ∀ v, (k, v) ∉ m := by
  rw [Option.eq_none_iff_forall_ne_some]
  exact forall_congr' fun v => not_congr find?_eq_some

theorem ext {m n : OrderedMap κ β} (h : ∀ k, m.find? k = n.find? k) : m = n :=
  OrderedSet.ext fun p => by rw [← find?_eq_some, ← find?_eq_some, h]

@[simp] theorem find?_empty (k : κ) : (∅ : OrderedMap κ β).find? k = none := rfl

theorem find?_insert (m : OrderedMap κ β) (k k' : κ) (v : β) :
    (m.insert k v).find? k' =
      if k' = k then some ((m.find? k).getD v) else m.find? k' := by
  apply Option.ext
  intro w
  rw [find?_eq_some, insert, OrderedSet.mem_insert]
  split_ifs with h
  · subst h
    cases hk : m.find? k' with
    | none =>
        have fresh := find?_eq_none.mp hk
        have absent : ∀ z ∈ m, z.1 ≠ k' := fun z hz e => fresh z.2 (e ▸ hz)
        rw [Option.getD_none, Option.some_inj]
        refine ⟨fun hw => hw.elim (fun hw => absurd hw (fresh w)) fun hw => ?_, fun hw => ?_⟩
        · exact (congrArg Prod.snd hw.1).symm
        · exact .inr ⟨hw ▸ rfl, absent⟩
    | some u =>
        have hu := find?_eq_some.mp hk
        have taken : ¬ ∀ z ∈ m, z.1 ≠ k' := fun absent => absent _ hu rfl
        rw [Option.getD_some, ← hk, find?_eq_some]
        exact or_iff_left fun hw => taken hw.2
  · simp [← find?_eq_some, h]

theorem find?_erase (m : OrderedMap κ β) (k k' : κ) :
    (m.erase k).find? k' = if k' = k then none else m.find? k' := by
  apply Option.ext
  intro w
  rw [find?_eq_some, OrderedSet.mem_def, erase, List.mem_filter]
  split_ifs with h
  · simp [h]
  · simp [h, ← OrderedSet.mem_def, ← find?_eq_some]

theorem erase_of_none {m : OrderedMap κ β} {k : κ} (h : m.find? k = none) : m.erase k = m :=
  ext fun k' => by
    rw [find?_erase]
    split_ifs with same
    · rw [same, h]
    · rfl

theorem find?_modify (m : OrderedMap κ β) (k k' : κ) (f : β → β) :
    (m.modify k f).find? k' = if k' = k then (m.find? k).map f else m.find? k' := by
  apply Option.ext
  intro w
  rw [find?_eq_some, OrderedSet.mem_def, modify, List.mem_map]
  split_ifs with h
  · subst h
    simp only [Option.map_eq_some_iff, find?_eq_some]
    constructor
    · rintro ⟨⟨i, u⟩, hu, he⟩
      split_ifs at he with hi
      · cases hi
        exact ⟨u, hu, (Prod.ext_iff.mp he).2⟩
      · exact absurd (Prod.ext_iff.mp he).1 hi
    · rintro ⟨u, hu, rfl⟩
      exact ⟨(k', u), hu, by simp⟩
  · rw [find?_eq_some]
    constructor
    · rintro ⟨⟨i, u⟩, hu, he⟩
      split_ifs at he with hi
      · exact absurd (Prod.ext_iff.mp he).1.symm h
      · exact he ▸ hu
    · intro hw
      exact ⟨(k', w), hw, by simp [h]⟩

@[simp] theorem keys_modify (m : OrderedMap κ β) (k : κ) (f : β → β) :
    (m.modify k f).keys = m.keys := by
  simp only [keys, modify, List.map_map]
  refine List.map_congr_left fun p _ => ?_
  by_cases h : p.1 = k <;> simp [h]

def mapValues (m : OrderedMap κ β) (f : β → β) : OrderedMap κ β :=
  ⟨m.elems.map (fun p => (p.1, f p.2)), List.pairwise_map.mpr m.sorted⟩

theorem find?_mapValues (m : OrderedMap κ β) (f : β → β) (k : κ) :
    (m.mapValues f).find? k = (m.find? k).map f := by
  simp only [find?, mapValues, List.find?_map, Option.map_map]
  rfl

theorem elems_insert_perm {m : OrderedMap κ β} {k : κ} (fresh : m.find? k = none) (v : β) :
    (m.insert k v).elems.Perm ((k, v) :: m.elems) :=
  OrderedSet.insert_elems_perm fun z hz (e : z.1 = k) => find?_eq_none.mp fresh z.2 (e ▸ hz)

theorem elems_erase_perm {m : OrderedMap κ β} {k : κ} {v : β} (taken : m.find? k = some v) :
    m.elems.Perm ((k, v) :: (m.erase k).elems) := by
  have member : (k, v) ∈ m.elems := find?_eq_some.mp taken
  have only : m.elems.filter (fun p => p.1 = k) = [(k, v)] := by
    refine (List.perm_singleton.mp ?_)
    have nodup : m.elems.Nodup := m.sorted.imp fun hlt e => hlt.ne (congrArg Prod.fst e)
    refine (List.perm_ext_iff_of_nodup (nodup.filter _) (List.nodup_singleton _)).mpr fun q => ?_
    simp only [List.mem_filter, List.mem_singleton, decide_eq_true_eq]
    exact ⟨fun hq => OrderedSet.eq_of_key_eq hq.1 member hq.2, fun hq => hq ▸ ⟨member, rfl⟩⟩
  have split := (List.filter_append_perm (fun p : κ × β => p.1 = k) m.elems).symm
  rw [only] at split
  simpa [erase] using split

theorem mem_keys {m : OrderedMap κ β} {k : κ} : k ∈ m.keys ↔ ∃ v, m.find? k = some v := by
  simp [keys, find?_eq_some, OrderedSet.mem_def]

theorem keys_nodup (m : OrderedMap κ β) : m.keys.Nodup :=
  List.pairwise_map.mpr (m.sorted.imp fun h => h.ne)

section Sum

variable {M : Type*} [AddCommMonoid M]

def sumBy (m : OrderedMap κ β) (f : κ → β → M) : M := (m.elems.map fun q => f q.1 q.2).sum

@[simp] theorem sumBy_empty (f : κ → β → M) : (∅ : OrderedMap κ β).sumBy f = 0 := rfl

theorem sumBy_eq_sum_keys (m : OrderedMap κ β) (f : κ → β → M) :
    m.sumBy f = (m.keys.map fun k => (m.find? k).elim 0 (f k)).sum := by
  unfold sumBy keys
  rw [List.map_map]
  refine congrArg List.sum (List.map_congr_left fun q hq => ?_)
  have stored : m.find? q.1 = some q.2 := find?_eq_some.mpr hq
  simp [stored]

theorem sumBy_eq_sum_of_subset {m : OrderedMap κ β} {s : Finset κ} (f : κ → β → M)
    (h : ∀ k ∈ m.keys, k ∈ s) : m.sumBy f = ∑ k ∈ s, (m.find? k).elim 0 (f k) := by
  rw [sumBy_eq_sum_keys, ← List.sum_toFinset _ m.keys_nodup]
  refine Finset.sum_subset (fun k hk => h k (List.mem_toFinset.mp hk)) fun k _ hk => ?_
  cases stored : m.find? k with
  | none => rfl
  | some v => exact absurd (List.mem_toFinset.mpr (mem_keys.mpr ⟨v, stored⟩)) hk

theorem sumBy_congr {γ : Type*} {m : OrderedMap κ β} {n : OrderedMap κ γ} {f : κ → β → M}
    {g : κ → γ → M} (h : ∀ k, (m.find? k).elim 0 (f k) = (n.find? k).elim 0 (g k)) :
    m.sumBy f = n.sumBy g := by
  rw [sumBy_eq_sum_of_subset f fun k hk => Finset.mem_union_left n.keys.toFinset
      (List.mem_toFinset.mpr hk),
    sumBy_eq_sum_of_subset g fun k hk => Finset.mem_union_right m.keys.toFinset
      (List.mem_toFinset.mpr hk)]
  exact Finset.sum_congr rfl fun k _ => h k

theorem sumBy_add (m : OrderedMap κ β) (f g : κ → β → M) :
    (m.sumBy fun k v => f k v + g k v) = m.sumBy f + m.sumBy g :=
  List.sum_map_add

theorem sumBy_mapValues (m : OrderedMap κ β) (e : β → β) (f : κ → β → M) :
    (m.mapValues e).sumBy f = m.sumBy fun k v => f k (e v) := by
  simp only [sumBy, mapValues, List.map_map]
  rfl

theorem sumBy_insert {m : OrderedMap κ β} {k : κ} (fresh : m.find? k = none) (v : β)
    (f : κ → β → M) : (m.insert k v).sumBy f = f k v + m.sumBy f := by
  simp only [sumBy, ((elems_insert_perm fresh v).map _).sum_eq, List.map_cons, List.sum_cons]

theorem sumBy_erase {m : OrderedMap κ β} {k : κ} {v : β} (taken : m.find? k = some v)
    (f : κ → β → M) : m.sumBy f = f k v + (m.erase k).sumBy f := by
  simp only [sumBy, ((elems_erase_perm taken).map _).sum_eq, List.map_cons, List.sum_cons]

end Sum

end OrderedMap
