import BatteryOS.Library.OrderedSet

/-! Timelines. The entries of an ordered set have times that do not fall along the order, and the
set is read at a time: the value in force is that of the last entry of a kind that is not later.
When the entries between two times make way for one that begins a value and one that resumes the
old, the timeline is overridden between the two times and is what it was everywhere else. -/

namespace OrderedSet

variable {α κ : Type*} [LinearOrder κ] {key : α → κ} {s s' : OrderedSet key} {p q : α → Bool}
  {x : α}

theorem getD_getLast?_cons {β : Type*} (value : α → β) (initial : β) {xs : List α} :
    ((x :: xs).getLast?.map value).getD initial =
      (xs.getLast?.map value).getD (value x) := by
  cases xs with
  | nil => rfl
  | cons y ys =>
      rw [List.getLast?_cons_cons, List.getLast?_cons]
      rfl

def lastWhere (s : OrderedSet key) (p : α → Bool) : Option α := (s.elems.filter p).getLast?

theorem lastWhere_eq_none : s.lastWhere p = none ↔ ∀ x ∈ s, p x = false := by
  simp [lastWhere, mem_def]

theorem lastWhere_eq_some : s.lastWhere p = some x ↔
    x ∈ s ∧ p x = true ∧ ∀ y ∈ s, p y = true → key y ≤ key x := by
  have sorted := s.sorted.filter p
  constructor
  · intro last
    obtain ⟨before, split⟩ := List.getLast?_eq_some_iff.mp last
    rw [split, List.pairwise_append] at sorted
    have mem : ∀ {y}, y ∈ before ++ [x] ↔ y ∈ s ∧ p y = true := by
      intro y
      rw [← split, List.mem_filter, mem_def]
    obtain ⟨hx, px⟩ := mem.mp (List.mem_append_right before (List.mem_singleton_self x))
    refine ⟨hx, px, fun y hy py => ?_⟩
    rcases List.mem_append.mp (mem.mpr ⟨hy, py⟩) with earlier | same
    · exact (sorted.2.2 y earlier x (List.mem_singleton_self x)).le
    · rw [List.mem_singleton.mp same]
  · rintro ⟨hx, px, greatest⟩
    cases last : s.lastWhere p with
    | none => rw [lastWhere_eq_none.mp last x hx] at px; cases px
    | some z =>
        obtain ⟨before, split⟩ := List.getLast?_eq_some_iff.mp last
        have hz : z ∈ s.elems.filter p := by
          rw [split]
          exact List.mem_append_right before (List.mem_singleton_self z)
        obtain ⟨inside, pz⟩ := List.mem_filter.mp hz
        have member : x ∈ s.elems.filter p := List.mem_filter.mpr ⟨hx, px⟩
        rw [split] at member sorted
        rcases List.mem_append.mp member with earlier | same
        · have below := (List.pairwise_append.mp sorted).2.2 x earlier z (List.mem_singleton_self z)
          exact absurd below (not_lt.mpr (greatest z inside pz))
        · rw [List.mem_singleton.mp same]

theorem lastWhere_congr (h : ∀ x, p x = true → (x ∈ s' ↔ x ∈ s)) :
    s'.lastWhere p = s.lastWhere p := by
  refine Option.ext fun x => ?_
  rw [lastWhere_eq_some, lastWhere_eq_some]
  constructor
  · rintro ⟨hx, px, greatest⟩
    exact ⟨(h x px).mp hx, px, fun y hy py => greatest y ((h y py).mpr hy) py⟩
  · rintro ⟨hx, px, greatest⟩
    exact ⟨(h x px).mpr hx, px, fun y hy py => greatest y ((h y py).mp hy) py⟩

theorem lastWhere_congr_right (h : ∀ x ∈ s, p x = q x) : s.lastWhere p = s.lastWhere q := by
  rw [lastWhere, lastWhere, List.filter_congr h]

section Timeline

variable {T β : Type*} [LinearOrder T] (time : α → T) (value : α → β)

/-- The value in force at a time, from an initial value on. -/
def valueAt (s : OrderedSet key) (p : α → Bool) (initial : β) (t : T) : β :=
  ((s.lastWhere fun x => p x && decide (time x ≤ t)).map value).getD initial

/-- The entries of a kind from one time to another are replaced by two at these times. -/
structure Overrides (p : α → Bool) (first second : α) (s s' : OrderedSet key) : Prop where
  mem : ∀ z, p z = true → (z ∈ s' ↔
    z ∈ s ∧ ¬ (time first ≤ time z ∧ time z ≤ time second) ∨ z = first ∨ z = second)
  beginKind : p first = true
  endKind : p second = true
  ordered : time first ≤ time second
  later : key first < key second

variable {time value} {first second : α} {initial : β} {t : T}

theorem valueAt_congr (h : ∀ x, p x = true → (x ∈ s' ↔ x ∈ s)) :
    s'.valueAt time value p initial t = s.valueAt time value p initial t := by
  rw [valueAt, valueAt, lastWhere_congr fun x px => h x (Bool.and_eq_true_iff.mp px).1]

theorem valueAt_insert (other : p x = false) :
    (s.insert x).valueAt time value p initial t = s.valueAt time value p initial t := by
  refine valueAt_congr fun y py => ?_
  rw [mem_insert]
  refine or_iff_left fun h => ?_
  rw [h.1, other] at py
  cases py

theorem due_iff : (p x && decide (time x ≤ t)) = true ↔ p x = true ∧ time x ≤ t := by
  rw [Bool.and_eq_true, decide_eq_true_eq]

theorem key_lt_of_time_lt (monotone : ∀ x y, key x ≤ key y → time x ≤ time y) {x y : α}
    (lt : time x < time y) : key x < key y :=
  lt_of_not_ge fun ge => absurd (monotone y x ge) (not_le.mpr lt)

section Overrides

variable (h : Overrides time p first second s s')
include h

theorem Overrides.lastWhere_before (early : t < time first) :
    (s'.lastWhere fun x => p x && decide (time x ≤ t)) =
      s.lastWhere fun x => p x && decide (time x ≤ t) := by
  refine lastWhere_congr fun x px => ?_
  obtain ⟨px, le⟩ := due_iff.mp px
  have lt : time x < time first := le.trans_lt early
  rw [h.mem x px]
  constructor
  · rintro (⟨hx, -⟩ | rfl | rfl)
    · exact hx
    · exact absurd lt (lt_irrefl _)
    · exact absurd (lt.trans_le h.ordered) (lt_irrefl _)
  · exact fun hx => .inl ⟨hx, fun both => absurd both.1 (not_le.mpr lt)⟩

variable (monotone : ∀ x y, key x ≤ key y → time x ≤ time y)
include monotone

theorem Overrides.lastWhere_within (began : time first ≤ t) (within : t < time second) :
    (s'.lastWhere fun x => p x && decide (time x ≤ t)) = some first := by
  refine lastWhere_eq_some.mpr ⟨(h.mem first h.beginKind).mpr (.inr (.inl rfl)),
    due_iff.mpr ⟨h.beginKind, began⟩, fun y hy py => ?_⟩
  obtain ⟨py, le⟩ := due_iff.mp py
  rcases (h.mem y py).mp hy with ⟨-, outside⟩ | rfl | rfl
  · have lt : time y < time first :=
      lt_of_not_ge fun ge => outside ⟨ge, (le.trans_lt within).le⟩
    exact (key_lt_of_time_lt monotone lt).le
  · exact le_rfl
  · exact absurd (le.trans_lt within) (lt_irrefl _)

theorem Overrides.lastWhere_after (last : (s.lastWhere fun x => p x && decide (time x ≤ t)) = some x)
    (after : time second < time x) :
    (s'.lastWhere fun x => p x && decide (time x ≤ t)) = some x := by
  obtain ⟨hx, px, greatest⟩ := lastWhere_eq_some.mp last
  refine lastWhere_eq_some.mpr ⟨?_, px, fun y hy py => ?_⟩
  · exact (h.mem x (due_iff.mp px).1).mpr (.inl ⟨hx, fun both => absurd both.2 (not_le.mpr after)⟩)
  · rcases (h.mem y (due_iff.mp py).1).mp hy with ⟨hy, -⟩ | rfl | rfl
    · exact greatest y hy py
    · exact (h.later.trans (key_lt_of_time_lt monotone after)).le
    · exact (key_lt_of_time_lt monotone after).le

theorem Overrides.lastWhere_ended (ended : time second ≤ t)
    (none_after : ∀ x ∈ s, p x = true → time x ≤ t → time x ≤ time second) :
    (s'.lastWhere fun x => p x && decide (time x ≤ t)) = some second := by
  refine lastWhere_eq_some.mpr ⟨(h.mem second h.endKind).mpr (.inr (.inr rfl)),
    due_iff.mpr ⟨h.endKind, ended⟩, fun y hy py => ?_⟩
  obtain ⟨py, le⟩ := due_iff.mp py
  rcases (h.mem y py).mp hy with ⟨hy, outside⟩ | rfl | rfl
  · have lt : time y < time first :=
      lt_of_not_ge fun ge => outside ⟨ge, none_after y hy py le⟩
    exact ((key_lt_of_time_lt monotone lt).trans h.later).le
  · exact h.later.le
  · exact le_rfl

/-- The timeline is overridden from the first time to the second and nowhere else. -/
theorem Overrides.valueAt
    (resumes : value second = s.valueAt time value p initial (time second)) (t : T) :
    s'.valueAt time value p initial t =
      if time first ≤ t ∧ t < time second then value first
      else s.valueAt time value p initial t := by
  rcases lt_or_ge t (time first) with early | began
  · rw [if_neg fun both => absurd both.1 (not_le.mpr early), OrderedSet.valueAt, OrderedSet.valueAt,
      h.lastWhere_before early]
  rcases lt_or_ge t (time second) with within | ended
  · rw [if_pos ⟨began, within⟩, OrderedSet.valueAt, h.lastWhere_within monotone began within]
    rfl
  rw [if_neg fun both => absurd both.2 (not_lt.mpr ended)]
  by_cases none_after : ∀ x ∈ s, p x = true → time x ≤ t → time x ≤ time second
  · rw [OrderedSet.valueAt, h.lastWhere_ended monotone ended none_after, Option.map_some,
      Option.getD_some, resumes, OrderedSet.valueAt, OrderedSet.valueAt,
      lastWhere_congr_right fun x hx => ?_]
    refine Bool.eq_iff_iff.mpr ?_
    rw [due_iff, due_iff]
    exact and_congr_right fun px => ⟨fun le => le.trans ended, none_after x hx px⟩
  · push Not at none_after
    obtain ⟨x, hx, px, le, after⟩ := none_after
    obtain ⟨z, last⟩ : ∃ z, (s.lastWhere fun x => p x && decide (time x ≤ t)) = some z := by
      refine Option.ne_none_iff_exists'.mp fun none => ?_
      exact Bool.eq_false_iff.mp (lastWhere_eq_none.mp none x hx) (due_iff.mpr ⟨px, le⟩)
    have greatest := (lastWhere_eq_some.mp last).2.2 x hx (due_iff.mpr ⟨px, le⟩)
    rw [OrderedSet.valueAt, OrderedSet.valueAt, last,
      h.lastWhere_after monotone last (after.trans_le (monotone x z greatest))]

end Overrides

/-- Entries that are due are taken off the front, and the last of them leaves its value: from
that time on the timeline reads as before. -/
theorem valueAt_of_due {due : List α} {now : T} (split : s.elems = due ++ s'.elems)
    (past : ∀ x ∈ due, time x ≤ now) (later : now ≤ t) :
    s'.valueAt time value p (((due.filter p).getLast?.map value).getD initial) t =
      s.valueAt time value p initial t := by
  have all : due.filter (fun x => p x && decide (time x ≤ t)) = due.filter p := by
    refine List.filter_congr fun x hx => ?_
    rw [decide_eq_true ((past x hx).trans later), Bool.and_true]
  rw [OrderedSet.valueAt, OrderedSet.valueAt, lastWhere, lastWhere, split, List.filter_append, all,
    List.getLast?_append]
  cases (s'.elems.filter fun x => p x && decide (time x ≤ t)).getLast? <;> simp

end Timeline

theorem elems_foldl_erase {front rest : List α} (split : s.elems = front ++ rest) :
    (front.foldl OrderedSet.erase s).elems = rest := by
  induction front generalizing s with
  | nil => exact split
  | cons x front ih =>
      refine ih ?_
      have sorted := s.sorted
      rw [split, List.cons_append, List.pairwise_cons] at sorted
      change s.elems.filter _ = _
      rw [split, List.cons_append, List.filter_cons_of_neg (by simp)]
      refine List.filter_eq_self.mpr fun y hy => ?_
      exact decide_eq_true (sorted.1 y hy).ne'

theorem mem_of_mem_foldl_erase {removed : List α} {x : α}
    (h : x ∈ removed.foldl OrderedSet.erase s) : x ∈ s := by
  induction removed generalizing s with
  | nil => exact h
  | cons y rest ih => exact (mem_erase.mp (ih h)).1

theorem mem_foldl_erase {removed : List α} {x : α} (inside : ∀ y ∈ removed, y ∈ s) :
    x ∈ removed.foldl OrderedSet.erase s ↔ x ∈ s ∧ x ∉ removed := by
  have mem : x ∈ removed.foldl OrderedSet.erase s ↔ x ∈ s ∧ ∀ y ∈ removed, key x ≠ key y := by
    clear inside
    induction removed generalizing s with
    | nil => simp
    | cons y rest ih =>
        rw [List.foldl_cons, ih, mem_erase, List.forall_mem_cons, and_assoc]
  rw [mem]
  refine and_congr_right fun hx => ⟨fun others hx' => others x hx' rfl, fun kept y hy same => ?_⟩
  exact kept (eq_of_key_eq hx (inside y hy) same ▸ hy)

end OrderedSet
