import BatteryOS.Library.StepRun
import Mathlib.Algebra.BigOperators.Group.List.Basic
import Mathlib.Algebra.Ring.Nat
import Mathlib.Order.WellFounded

/-! Threads that share locks. Each goes through a list of operations and waits at a lock that is
held, by another or by itself. Where all threads take their locks in descending order and give
them back, a thread can always go on, so that every run can be led to the end of all of them. -/

namespace LockOrder

inductive Op (L : Type*)
  | acquire (lock : L)
  | release (lock : L)
deriving DecidableEq, Repr

structure Thread (L : Type*) where
  held : List L
  todo : List (Op L)
deriving DecidableEq, Repr

def Thread.Finished {L : Type*} (t : Thread L) : Prop := t.held = [] ∧ t.todo = []

section Step

variable {L : Type*} [DecidableEq L]

/-- The next operation of the thread at an index; `none` when it has none or has to wait. -/
def step (threads : List (Thread L)) (i : ℕ) : Option (List (Thread L)) :=
  match threads[i]? with
  | none | some ⟨_, []⟩ => none
  | some ⟨held, .acquire lock :: todo⟩ =>
    if threads.any fun t => lock ∈ t.held then none
    else some (threads.set i ⟨lock :: held, todo⟩)
  | some ⟨held, .release lock :: todo⟩ => some (threads.set i ⟨held.erase lock, todo⟩)

def remaining (threads : List (Thread L)) : ℕ := (threads.map fun t => t.todo.length).sum

/-- A thread that holds some locks takes only lower ones, and in the end holds none. -/
def Descends [LT L] : List L → List (Op L) → Prop
  | held, [] => held = []
  | held, .acquire lock :: todo => (∀ l ∈ held, lock < l) ∧ Descends (lock :: held) todo
  | held, .release lock :: todo => Descends (held.erase lock) todo

theorem descends_bracket [LT L] {lock : L} {held : List L} {inner rest : List (Op L)}
    (below : ∀ l ∈ held, lock < l)
    (nested : ∀ todo, Descends (lock :: held) todo → Descends (lock :: held) (inner ++ todo))
    (after : Descends held rest) :
    Descends held (.acquire lock :: inner ++ .release lock :: rest) := by
  refine ⟨below, nested _ ?_⟩
  rw [Descends, List.erase_cons_head]
  exact after

def Exclusive (threads : List (Thread L)) : Prop :=
  ∀ (i j : ℕ) (t u : Thread L), threads[i]? = some t → threads[j]? = some u →
    ∀ lock, lock ∈ t.held → lock ∈ u.held → i = j

variable {start threads threads' : List (Thread L)} {schedule : List ℕ} {i : ℕ} {t : Thread L}

theorem step_cases (h : step threads i = some threads') :
    (∃ held lock todo, threads[i]? = some ⟨held, .acquire lock :: todo⟩ ∧
      (∀ t ∈ threads, lock ∉ t.held) ∧ threads' = threads.set i ⟨lock :: held, todo⟩) ∨
    (∃ held lock todo, threads[i]? = some ⟨held, .release lock :: todo⟩ ∧
      threads' = threads.set i ⟨held.erase lock, todo⟩) := by
  unfold step at h
  split at h
  · cases h
  · cases h
  next held lock todo found =>
    split_ifs at h with taken
    refine .inl ⟨held, lock, todo, found, fun t ht mem => taken ?_, (Option.some.inj h).symm⟩
    exact List.any_eq_true.mpr ⟨t, ht, by simpa using mem⟩
  next held lock todo found => exact .inr ⟨held, lock, todo, found, (Option.some.inj h).symm⟩

theorem isSome_step (found : threads[i]? = some t) (unfinished : t.todo ≠ [])
    (free : ∀ lock todo, t.todo = .acquire lock :: todo → ∀ u ∈ threads, lock ∉ u.held) :
    (step threads i).isSome := by
  obtain ⟨held, todo⟩ := t
  cases todo with
  | nil => exact absurd rfl unfinished
  | cons op todo =>
      cases op with
      | release lock => simp [step, found]
      | acquire lock =>
          have none_holds : ¬ threads.any (fun t => lock ∈ t.held) = true := by
            simpa using free lock todo rfl
          simp only [step, found, if_neg none_holds, Option.isSome_some]

theorem descends_step [LT L] (ordered : ∀ t ∈ threads, Descends t.held t.todo)
    (h : step threads i = some threads') : ∀ t ∈ threads', Descends t.held t.todo := by
  rcases step_cases h with ⟨held, lock, todo, found, -, rfl⟩ | ⟨held, lock, todo, found, rfl⟩
  · have this := ordered _ (List.mem_of_getElem? found)
    intro t ht
    rcases List.mem_or_eq_of_mem_set ht with old | rfl
    · exact ordered t old
    · exact this.2
  · have this := ordered _ (List.mem_of_getElem? found)
    intro t ht
    rcases List.mem_or_eq_of_mem_set ht with old | rfl
    · exact ordered t old
    · exact this

omit [DecidableEq L] in
theorem remaining_eq_zero : remaining threads = 0 ↔ ∀ t ∈ threads, t.todo = [] := by
  induction threads with
  | nil => simp [remaining]
  | cons t rest ih =>
      rw [List.forall_mem_cons, ← ih]
      simp [remaining]

omit [DecidableEq L] in
theorem exclusive_set (exclusive : Exclusive threads) {held : List L} {todo : List (Op L)}
    (found : threads[i]? = some t)
    (new : ∀ lock ∈ held, lock ∈ t.held ∨ ∀ u ∈ threads, lock ∉ u.held) :
    Exclusive (threads.set i ⟨held, todo⟩) := by
  have old : ∀ {j u lock}, (threads.set i ⟨held, todo⟩)[j]? = some u → lock ∈ u.held →
      j ≠ i → ∃ u, threads[j]? = some u ∧ lock ∈ u.held := by
    intro j u lock hu mem other
    rw [List.getElem?_set_ne (Ne.symm other)] at hu
    exact ⟨u, hu, mem⟩
  have own : ∀ {u lock}, (threads.set i ⟨held, todo⟩)[i]? = some u → lock ∈ u.held →
      lock ∈ held := by
    intro u lock hu mem
    rw [List.getElem?_set_self (List.getElem?_eq_some_iff.mp found).1] at hu
    rwa [← Option.some.inj hu] at mem
  have apart : ∀ {j u v lock}, (threads.set i ⟨held, todo⟩)[i]? = some u → lock ∈ u.held →
      (threads.set i ⟨held, todo⟩)[j]? = some v → lock ∈ v.held → j = i := by
    intro j u v lock hu memu hv memv
    by_contra other
    obtain ⟨w, hw, memw⟩ := old hv memv other
    rcases new lock (own hu memu) with kept | free
    · exact other (exclusive j i w t hw found lock memw kept)
    · exact free w (List.mem_of_getElem? hw) memw
  intro j k u v hu hv lock memu memv
  by_cases hj : j = i
  · subst hj
    exact (apart hu memu hv memv).symm
  by_cases hk : k = i
  · subst hk
    exact apart hv memv hu memu
  obtain ⟨u', hu', memu'⟩ := old hu memu hj
  obtain ⟨v', hv', memv'⟩ := old hv memv hk
  exact exclusive j k u' v' hu' hv' lock memu' memv'

theorem exclusive_step (exclusive : Exclusive threads) (h : step threads i = some threads') :
    Exclusive threads' := by
  rcases step_cases h with ⟨held, lock, todo, found, free, rfl⟩ | ⟨held, lock, todo, found, rfl⟩
  · refine exclusive_set exclusive found fun l hl => ?_
    rcases List.mem_cons.mp hl with rfl | hl
    · exact .inr free
    · exact .inl hl
  · exact exclusive_set exclusive found fun l hl => .inl (List.mem_of_mem_erase hl)

theorem remaining_step (h : step threads i = some threads') :
    remaining threads = remaining threads' + 1 := by
  have replaced : ∀ {held held' : List L} {op : Op L} {todo : List (Op L)},
      threads[i]? = some ⟨held, op :: todo⟩ →
      remaining threads = remaining (threads.set i ⟨held', todo⟩) + 1 := by
    intro held held' op todo found
    obtain ⟨hi, entry⟩ := List.getElem?_eq_some_iff.mp found
    have self : threads = threads.set i ⟨held, op :: todo⟩ := by
      rw [← entry, List.set_getElem_self]
    conv_lhs => rw [self]
    simp only [remaining, List.map_set, List.sum_set, List.length_map, hi, if_true,
      List.length_cons]
    omega
  rcases step_cases h with ⟨held, lock, todo, found, -, rfl⟩ | ⟨held, lock, todo, found, rfl⟩
  · exact replaced found
  · exact replaced found

theorem length_schedule (run : StepRun.exec step start schedule = some threads) :
    schedule.length + remaining threads = remaining start := by
  induction schedule generalizing start with
  | nil =>
      obtain rfl := Option.some.inj run
      exact Nat.zero_add _
  | cons i rest ih =>
      rw [StepRun.exec, List.foldlM_cons] at run
      obtain ⟨next, hstep, run⟩ := Option.bind_eq_some_iff.mp run
      have one_less := remaining_step hstep
      have later := ih run
      rw [List.length_cons]
      omega

end Step

section Progress

variable {L : Type*} [DecidableEq L] [Preorder L] [WellFoundedLT L]
  {start threads : List (Thread L)} {schedule : List ℕ}

/-- Of the threads that are not at their end, one that waits for a lowest lock can go on: whoever
held that lock would wait for a lower one. -/
theorem progress (ordered : ∀ t ∈ threads, Descends t.held t.todo)
    (unfinished : ∃ t ∈ threads, t.todo ≠ []) : ∃ i, (step threads i).isSome := by
  by_contra stuck
  have waits : ∀ t ∈ threads, t.todo ≠ [] → ∃ lock todo, t.todo = .acquire lock :: todo ∧
      ∃ u ∈ threads, lock ∈ u.held := by
    intro t ht work
    obtain ⟨i, found⟩ := List.mem_iff_getElem?.mp ht
    by_contra free
    refine stuck ⟨i, isSome_step found work fun lock todo next u hu mem => free ?_⟩
    exact ⟨lock, todo, next, u, hu, mem⟩
  obtain ⟨t₀, ht₀, work₀⟩ := unfinished
  obtain ⟨first, todo₀, next₀, -⟩ := waits t₀ ht₀ work₀
  let wanted : Set L := {lock | ∃ t ∈ threads, ∃ todo, t.todo = .acquire lock :: todo}
  obtain ⟨lock, ⟨t, ht, todo, next⟩, lowest⟩ :=
    WellFounded.has_min (wellFounded_lt (α := L)) wanted ⟨first, t₀, ht₀, todo₀, next₀⟩
  obtain ⟨_, _, same, u, hu, mem⟩ := waits t ht (by simp [next])
  obtain ⟨rfl, -⟩ : lock = _ ∧ todo = _ := by simpa [next] using same
  have busy : u.todo ≠ [] := by
    intro done
    have empty := ordered u hu
    rw [done] at empty
    rw [show u.held = [] from empty] at mem
    cases mem
  obtain ⟨lower, todo', next', -⟩ := waits u hu busy
  have below := ordered u hu
  rw [next'] at below
  exact lowest lower ⟨u, hu, todo', next'⟩ (below.1 lock mem)

theorem exists_completion (ordered : ∀ t ∈ threads, Descends t.held t.todo) :
    ∃ rest final, StepRun.exec step threads rest = some final ∧ ∀ t ∈ final, t.Finished := by
  induction hn : remaining threads generalizing threads with
  | zero =>
      refine ⟨[], threads, rfl, fun t ht => ?_⟩
      have idle := remaining_eq_zero.mp hn t ht
      have given_back := ordered t ht
      rw [idle] at given_back
      exact ⟨given_back, idle⟩
  | succ n ih =>
      have unfinished : ∃ t ∈ threads, t.todo ≠ [] := by
        by_contra all
        push Not at all
        have none_left := remaining_eq_zero.mpr all
        omega
      obtain ⟨i, isSome⟩ := progress ordered unfinished
      obtain ⟨next, hstep⟩ := Option.isSome_iff_exists.mp isSome
      have one_less := remaining_step hstep
      obtain ⟨rest, final, run, done⟩ := ih (descends_step ordered hstep) (by omega)
      refine ⟨i :: rest, final, ?_, done⟩
      rw [StepRun.exec, List.foldlM_cons, hstep]
      exact run

omit [WellFoundedLT L] in
theorem exec_ordered (ordered : ∀ t ∈ start, Descends t.held t.todo)
    (fresh : ∀ t ∈ start, t.held = [])
    (run : StepRun.exec step start schedule = some threads) :
    (∀ t ∈ threads, Descends t.held t.todo) ∧ Exclusive threads := by
  have empty : Exclusive start := by
    intro i j t u ht _ lock mem
    rw [fresh t (List.mem_of_getElem? ht)] at mem
    cases mem
  exact StepRun.exec_kept (Q := fun threads =>
      (∀ t ∈ threads, Descends t.held t.todo) ∧ Exclusive threads) ⟨ordered, empty⟩
    (fun _ _ _ h hstep => ⟨descends_step h.1 hstep, exclusive_step h.2 hstep⟩) run

end Progress

end LockOrder
