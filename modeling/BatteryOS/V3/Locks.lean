import BatteryOS.Library.LockOrder
import BatteryOS.V3.Manager

/-! The locks of batteries. `getStatus` and the event thread keep the lock of their battery while a
refresh asks the sources, which take theirs in turn. What a call finds on its way, such as a status
that is too old, is up to the time of the call, so a call stands for every list of operations that
it may come to. Where a thread waits for another to end it holds no lock, or the other takes none,
so this is left out, as is a wait at the condition variable, which gives the lock back. -/

namespace BatteryOS.V3

open LockOrder

/-- The functions that take locks. The guarded ones take that of the battery and call nothing:
`checkMergeAndInsertEvents`, `setMaxStaleness`, `setBatteryStatus` and `quit`. -/
inductive LockCall
  | guarded (battery : ℕ)
  | getStatus (battery : ℕ)
  | getStatuses (batteries : List ℕ)
  | refresh (battery : ℕ)
  | refreshes (battery : ℕ)
  | runEventThread (battery : ℕ)
  | setRefreshMode (battery : ℕ)
  | scheduleSetCurrent (battery : ℕ)
  | dispatch (parents : List ℕ)

def Kind.forwardsTo : Kind → Option ℕ
  | .physical | .aggregate _ => none
  | .partition source | .partitionManager _ source _ _ => some source

theorem Kind.mem_sources_of_forwardsTo {kind : Kind} {source : ℕ}
    (h : kind.forwardsTo = some source) : source ∈ kind.sources := by
  cases kind <;> simp_all [forwardsTo, sources]

namespace World

inductive Locks (w : World) : LockCall → List (Op ℕ) → Prop
  | guarded (i : ℕ) : Locks w (.guarded i) [.acquire i, .release i]
  | fresh (i : ℕ) : Locks w (.getStatus i) [.acquire i, .release i]
  | stale {i : ℕ} {ops : List (Op ℕ)} : Locks w (.refresh i) ops →
      Locks w (.getStatus i) (.acquire i :: ops ++ [.release i])
  | getStatuses_nil : Locks w (.getStatuses []) []
  | getStatuses_cons {i : ℕ} {rest : List ℕ} {first later : List (Op ℕ)} :
      Locks w (.getStatus i) first → Locks w (.getStatuses rest) later →
      Locks w (.getStatuses (i :: rest)) (first ++ later)
  | physical {i : ℕ} : w.kind? i = some .physical → Locks w (.refresh i) []
  | partition {i source : ℕ} : w.kind? i = some (.partition source) → Locks w (.refresh i) []
  -- `set_c_rate` and then `calcStatusVals` ask every parent
  | aggregate {i : ℕ} {parents : List ℕ} {ops : List (Op ℕ)} :
      w.kind? i = some (.aggregate parents) → Locks w (.getStatuses (parents ++ parents)) ops →
      Locks w (.refresh i) ops
  | partitionManager {i source : ℕ} {policyType : PolicyType} {children : List ℕ}
      {childProportions : List Scale} {ops : List (Op ℕ)} :
      w.kind? i = some (.partitionManager policyType source children childProportions) →
      Locks w (.getStatus source) ops → Locks w (.refresh i) ops
  | refreshes_nil (i : ℕ) : Locks w (.refreshes i) []
  | refreshes_cons {i : ℕ} {first later : List (Op ℕ)} : Locks w (.refresh i) first →
      Locks w (.refreshes i) later → Locks w (.refreshes i) (first ++ later)
  -- one refresh for each REFRESH event that is due
  | runEventThread {i : ℕ} {ops : List (Op ℕ)} : Locks w (.refreshes i) ops →
      Locks w (.runEventThread i) (.acquire i :: ops ++ [.release i])
  | sameMode (i : ℕ) : Locks w (.setRefreshMode i) []
  | lazyMode (i : ℕ) : Locks w (.setRefreshMode i) [.acquire i, .release i]
  | activeMode {i : ℕ} {ops : List (Op ℕ)} : Locks w (.refresh i) ops →
      Locks w (.setRefreshMode i) (.acquire i :: ops ++ [.release i])
  | refused (i : ℕ) : Locks w (.scheduleSetCurrent i) []
  | inserted {i : ℕ} : w.kind? i = some .physical →
      Locks w (.scheduleSetCurrent i) [.acquire i, .release i]
  | refused_below {i source : ℕ} {kind : Kind} {ops : List (Op ℕ)} : w.kind? i = some kind →
      kind.forwardsTo = some source → Locks w (.scheduleSetCurrent source) ops →
      Locks w (.scheduleSetCurrent i) ops
  | inserted_below {i source : ℕ} {kind : Kind} {ops : List (Op ℕ)} : w.kind? i = some kind →
      kind.forwardsTo = some source → Locks w (.scheduleSetCurrent source) ops →
      Locks w (.scheduleSetCurrent i) (ops ++ [.acquire i, .release i])
  | checked {i : ℕ} {parents : List ℕ} {status ops : List (Op ℕ)} :
      w.kind? i = some (.aggregate parents) → Locks w (.getStatus i) status →
      Locks w (.dispatch parents) ops → Locks w (.scheduleSetCurrent i) (status ++ ops)
  | dispatch_stop (parents : List ℕ) : Locks w (.dispatch parents) []
  | dispatch_cons {i : ℕ} {rest : List ℕ} {status ops later : List (Op ℕ)} :
      Locks w (.getStatus i) status → Locks w (.scheduleSetCurrent i) ops →
      Locks w (.dispatch rest) later → Locks w (.dispatch (i :: rest)) (status ++ ops ++ later)

def Executes (w : World) (t : Thread ℕ) : Prop :=
  t.held = [] ∧ ∃ calls opss, List.Forall₂ w.Locks calls opss ∧ t.todo = opss.flatten

end World

/-- The locks that a thread may hold when it makes a call: those of batteries further up. -/
def LockCall.Below : LockCall → ℕ → Prop
  | .guarded i, l | .getStatus i, l | .runEventThread i, l | .setRefreshMode i, l
  | .scheduleSetCurrent i, l => i < l
  | .refresh i, l | .refreshes i, l => i ≤ l
  | .getStatuses batteries, l | .dispatch batteries, l => ∀ i ∈ batteries, i < l

section Descending

variable {w : World} {call : LockCall} {ops : List (Op ℕ)}

theorem World.Layered.descends (layered : w.Layered) (locks : w.Locks call ops)
    {held : List ℕ} (below : ∀ l ∈ held, call.Below l) {todo : List (Op ℕ)}
    (after : Descends held todo) : Descends held (ops ++ todo) := by
  have bracket : ∀ {i : ℕ} (inner : List (Op ℕ)) {held : List ℕ} {todo : List (Op ℕ)},
      (∀ l ∈ held, i < l) → Descends held todo →
      (∀ todo, Descends (i :: held) todo → Descends (i :: held) (inner ++ todo)) →
      Descends held (.acquire i :: inner ++ [.release i] ++ todo) := by
    intro i inner held todo lower after nested
    simpa using descends_bracket lower nested after
  have upTo : ∀ {i : ℕ} {held : List ℕ}, (∀ l ∈ held, i < l) → ∀ l ∈ i :: held, i ≤ l := by
    intro i held lower l hl
    rcases List.mem_cons.mp hl with rfl | hl
    · exact le_rfl
    · exact (lower l hl).le
  induction locks generalizing held todo with
  | guarded i | fresh i | lazyMode i => exact bracket [] below after fun _ h => h
  | inserted => exact bracket [] below after fun _ h => h
  | stale _ ih | activeMode _ ih | runEventThread _ ih =>
      exact bracket _ below after fun _ h => ih (upTo below) h
  | getStatuses_nil | physical | partition | refreshes_nil | sameMode | refused | dispatch_stop =>
      exact after
  | getStatuses_cons _ _ ih ih' =>
      rw [List.append_assoc]
      exact ih (fun l hl => below l hl _ List.mem_cons_self)
        (ih' (fun l hl i hi => below l hl i (List.mem_cons_of_mem _ hi)) after)
  | aggregate kind _ ih =>
      refine ih (fun l hl s hs => ?_) after
      have parent := (List.mem_append.mp hs).elim id id
      exact (layered _ _ kind s parent).trans_le (below l hl)
  | partitionManager kind _ ih =>
      exact ih (fun l hl => (layered _ _ kind _ List.mem_cons_self).trans_le (below l hl)) after
  | refreshes_cons _ _ ih ih' =>
      rw [List.append_assoc]
      exact ih below (ih' below after)
  | refused_below kind source _ ih =>
      have lower := layered _ _ kind _ (Kind.mem_sources_of_forwardsTo source)
      exact ih (fun l hl => lower.trans (below l hl)) after
  | inserted_below kind source _ ih =>
      have lower := layered _ _ kind _ (Kind.mem_sources_of_forwardsTo source)
      rw [List.append_assoc]
      refine ih (fun l hl => lower.trans (below l hl)) ?_
      exact bracket [] below after fun _ h => h
  | checked kind _ _ ih ih' =>
      rw [List.append_assoc]
      refine ih below (ih' (fun l hl s hs => ?_) after)
      exact (layered _ _ kind s hs).trans (below l hl)
  | dispatch_cons _ _ _ ih ih' ih'' =>
      have first : ∀ l ∈ held, _ < l := fun l hl => below l hl _ List.mem_cons_self
      rw [List.append_assoc, List.append_assoc]
      exact ih first (ih' first
        (ih'' (fun l hl i hi => below l hl i (List.mem_cons_of_mem _ hi)) after))

theorem World.Executes.descends {t : Thread ℕ} (layered : w.Layered) (executes : w.Executes t) :
    Descends t.held t.todo := by
  obtain ⟨held, todo⟩ := t
  obtain ⟨rfl, calls, opss, each, rfl⟩ := executes
  induction each with
  | nil => rfl
  | cons locks _ ih => exact layered.descends locks (fun l hl => by cases hl) ih

end Descending

namespace BatteryDirectoryManager

variable {m : BatteryDirectoryManager} {calls : List Call}

/-- However the calls of any threads on the batteries of a directory interleave, no two hold one
lock, and they can all come to their ends; with no more steps than there are operations. -/
theorem locks_never_deadlock (run : empty.exec calls = some m) {start threads : List (Thread ℕ)}
    (executes : ∀ t ∈ start, m.world.Executes t) {schedule : List ℕ}
    (reached : StepRun.exec LockOrder.step start schedule = some threads) :
    LockOrder.Exclusive threads ∧ schedule.length ≤ LockOrder.remaining start ∧
      ((∀ i, LockOrder.step threads i = none) → ∀ t ∈ threads, t.Finished) ∧
      ∃ rest final, StepRun.exec LockOrder.step threads rest = some final ∧
        ∀ t ∈ final, t.Finished := by
  have layered := (exec_sound run).layered
  obtain ⟨ordered, exclusive⟩ := exec_ordered (fun t ht => (executes t ht).descends layered)
    (fun t ht => (executes t ht).1) reached
  have spent := length_schedule reached
  refine ⟨exclusive, by omega, fun stuck t ht => ?_, exists_completion ordered⟩
  obtain ⟨rest, final, onward, finished⟩ := exists_completion ordered
  cases rest with
  | nil =>
      obtain rfl := Option.some.inj onward
      exact finished t ht
  | cons i rest =>
      rw [StepRun.exec, List.foldlM_cons, stuck i] at onward
      cases onward

/-- A status is asked of an aggregate while the event thread of its parent refreshes. -/
theorem locks_never_deadlock_pair :
    ∃ m, empty.exec [.createPhysicalBattery "p" 1000 .lazy,
        .createAggregateBattery 0 "a" ["p"] 1000 .lazy] = some m ∧
      ∃ threads : List (Thread ℕ), LockOrder.Exclusive threads ∧
        ∃ rest final, StepRun.exec LockOrder.step threads rest = some final ∧
          ∀ t ∈ final, t.Finished := by
  obtain ⟨m, run, physical, aggregate⟩ : ∃ m, empty.exec
      [.createPhysicalBattery "p" 1000 .lazy,
        .createAggregateBattery 0 "a" ["p"] 1000 .lazy] = some m ∧
      m.world.kind? 0 = some .physical ∧ m.world.kind? 1 = some (.aggregate [0]) :=
    ⟨_, rfl, by decide +kernel, by decide +kernel⟩
  have asked : m.world.Locks (.getStatus 1)
      [.acquire 1, .acquire 0, .release 0, .acquire 0, .release 0, .release 1] :=
    .stale (.aggregate aggregate
      (.getStatuses_cons (.fresh 0) (.getStatuses_cons (.fresh 0) .getStatuses_nil)))
  have woken : m.world.Locks (.runEventThread 0) [.acquire 0, .release 0] :=
    .runEventThread (.refreshes_cons (.physical physical) (.refreshes_nil 0))
  have reached : StepRun.exec LockOrder.step
      [⟨[], [.acquire 1, .acquire 0, .release 0, .acquire 0, .release 0, .release 1]⟩,
        (⟨[], [.acquire 0, .release 0]⟩ : Thread ℕ)] [0, 1] =
      some [⟨[1], [.acquire 0, .release 0, .acquire 0, .release 0, .release 1]⟩,
        ⟨[0], [.release 0]⟩] := rfl
  obtain ⟨exclusive, -, -, onward⟩ := locks_never_deadlock run
    (by
      intro t ht
      rcases List.mem_cons.mp ht with rfl | ht
      · exact ⟨rfl, [.getStatus 1], [_], .cons asked .nil, rfl⟩
      · obtain rfl := List.mem_singleton.mp ht
        exact ⟨rfl, [.runEventThread 0], [_], .cons woken .nil, rfl⟩) reached
  exact ⟨m, run, _, exclusive, onward⟩

end BatteryDirectoryManager

end BatteryOS.V3
