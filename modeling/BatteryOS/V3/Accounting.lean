import BatteryOS.V3.Cancellation

/-! The running current. Applying an event adds or takes off the current of one entry,
and a cancel drops an entry without touching the sum: the sum stays that of the begun
entries as long as only entries that have not begun are cancelled. -/

namespace BatteryOS.V3

namespace Battery

/-- The currents of the entries whose BEGIN has left the queue and whose END has not. -/
def begunSum (b : Battery) : ℤ :=
  b.eventMap.sumBy fun _ pair => if pair.first ∈ b.eventSet then 0 else pair.first.currentMA

/-- A merge covers no entry that has begun, and moves no BEGIN past a cancel of its entry. -/
def MergesPending (b : Battery) (r : Request) : Prop :=
  ∀ q ∈ b.eventMap, (r.meets q.2 = .covered → q.2.first ∈ b.eventSet) ∧
    (r.meets q.2 = .beginMoved → ∀ z ∈ b.eventSet, z.eventID = .cancelSetCurrentEvent →
      z.sequenceNumber = q.1 → z.eventTime ≤ r.endTime)

instance (b : Battery) (r : Request) : Decidable (b.MergesPending r) :=
  inferInstanceAs (Decidable (∀ q ∈ b.eventMap, (r.meets q.2 = .covered → q.2.first ∈ b.eventSet) ∧
    (r.meets q.2 = .beginMoved → ∀ z ∈ b.eventSet, z.eventID = .cancelSetCurrentEvent →
      z.sequenceNumber = q.1 → z.eventTime ≤ r.endTime)))

/-- A new number merges with entries that have not begun; a number sent again replaces one.
Cancels of the number come no later than its start. -/
@[mk_iff] structure AccountSafe (b : Battery) (r : Request) : Prop where
  merged : b.eventMap.find? r.sequenceNumber = none → b.MergesPending r
  resent : ∀ pair ∈ b.eventMap.find? r.sequenceNumber, pair.first ∈ b.eventSet
  cancels : ∀ z ∈ b.eventSet, z.eventID = .cancelSetCurrentEvent →
    z.sequenceNumber = r.sequenceNumber → z.eventTime ≤ r.startTime

instance (b : Battery) (r : Request) : Decidable (b.AccountSafe r) :=
  decidable_of_iff _ (accountSafe_iff b r).symm

/-- The entries behind the running current, at a clock. -/
structure Accounted (b : Battery) (clock : ℤ) : Prop where
  balance : b.currentMA = b.begunSum
  begun_le : ∀ k pair, b.eventMap.find? k = some pair → pair.first ∉ b.eventSet →
    pair.first.eventTime ≤ clock
  cancel_le : ∀ z ∈ b.eventSet, z.eventID = .cancelSetCurrentEvent →
    ∀ pair, b.eventMap.find? z.sequenceNumber = some pair →
      pair.first ∈ b.eventSet ∧ z.eventTime ≤ pair.first.eventTime

theorem Idle.accounted {b : Battery} (h : b.Idle) (clock : ℤ) : b.Accounted clock where
  balance := by rw [h.currentMA, begunSum, h.eventMap, OrderedMap.sumBy_empty]
  begun_le k pair stored := by simp [h.eventMap] at stored
  cancel_le z hz hid := by simp [h.eventSet z hz] at hid

theorem begunSum_congr {b b' : Battery} (h : ∀ k,
    (b'.eventMap.find? k).elim 0
        (fun pair => if pair.first ∈ b'.eventSet then 0 else pair.first.currentMA) =
      (b.eventMap.find? k).elim 0
        (fun pair => if pair.first ∈ b.eventSet then 0 else pair.first.currentMA)) :
    b'.begunSum = b.begunSum :=
  OrderedMap.sumBy_congr h

section Request

variable {b : Battery} {r : Request} {clock : ℤ}

theorem request_currentMA (b : Battery) (r : Request) : (b.request r).currentMA = b.currentMA := by
  unfold request scheduleSetCurrent
  split_ifs <;> rfl

/-- A merge begins nothing and takes nothing back: a begun entry starts too early to have
its BEGIN moved. -/
theorem Accounted.merged_first_mem (h : b.Accounted clock) (hb : b.Consistent)
    (hlt : r.startTime < r.endTime) (accepts : ¬ b.Refuses r) (hstart : clock ≤ r.startTime)
    (fresh : b.eventMap.find? r.sequenceNumber = none) {k : ℕ} {pair : EventPair}
    (stored : b.eventMap.find? k = some pair) :
    (r.merged pair).first ∈ (b.request r).eventSet ↔ pair.first ∈ b.eventSet := by
  have interval := r.merged_interval (hb.interval stored)
  have number : (r.merged pair).first.sequenceNumber = k := interval.first
  have new : (r.merged pair).first ≠ (b.newPair r).first := by
    intro e
    have : k = r.sequenceNumber := number ▸ e ▸ rfl
    rw [this, fresh] at stored
    cases stored
  rw [hb.mem_request_begin accepts hlt fresh interval.first_eventID, or_iff_right new, number, stored]
  constructor
  · rintro ⟨pair', e, -, pending | moved⟩
    · exact Option.some.inj e ▸ pending
    · by_contra begun
      have := h.begun_le k pair stored begun
      have := (overlap_eq_beginMoved.mp (Option.some.inj e ▸ moved)).2.1
      omega
  · exact fun pending => ⟨pair, rfl, rfl, .inl pending⟩

theorem newPair_first_mem (hb : b.Consistent) (hlt : r.startTime < r.endTime)
    (accepts : ¬ b.Refuses r) : (b.newPair r).first ∈ (b.request r).eventSet := by
  rw [request_of_accepts accepts, hb.mem_insertEvents hlt]
  exact .inr (.inl rfl)

theorem Accounted.request_fresh (h : b.Accounted clock) (hb : b.Consistent)
    (hlt : r.startTime < r.endTime) (accepts : ¬ b.Refuses r) (hclock : clock ≤ r.now)
    (hstart : r.now ≤ r.startTime) (fresh : b.eventMap.find? r.sequenceNumber = none)
    (safe : b.AccountSafe r) : (b.request r).Accounted r.now := by
  have find := hb.request_find? accepts fresh
  have first_mem := fun {k pair} (stored : b.eventMap.find? k = some pair) =>
    h.merged_first_mem hb hlt accepts (hclock.trans hstart) fresh stored
  have new_mem := newPair_first_mem hb hlt accepts
  refine ⟨?_, fun k pair' stored' begun => ?_, fun z hz hid pair' stored' => ?_⟩
  · rw [request_currentMA, h.balance]
    refine (begunSum_congr fun k => ?_).symm
    rw [find]
    split_ifs with hk
    · rw [hk, fresh, Option.elim_some, if_pos new_mem, Option.elim_none]
    · cases stored : b.eventMap.find? k with
      | none => rfl
      | some pair =>
          simp only [Option.map_some, Option.elim_some, first_mem stored, r.merged_currentMA]
  · rw [find] at stored'
    split_ifs at stored' with hk
    · exact absurd (Option.some.inj stored' ▸ new_mem) begun
    · obtain ⟨pair, stored, rfl⟩ := Option.map_eq_some_iff.mp stored'
      rw [first_mem stored] at begun
      have hle := h.begun_le k pair stored begun
      rw [r.merged_first_eventTime_of_le (hle.trans (hclock.trans hstart))]
      exact hle.trans hclock
  · rw [find] at stored'
    split_ifs at stored' with hk
    · obtain rfl := Option.some.inj stored'
      refine ⟨new_mem, ?_⟩
      rcases (hb.mem_request_cancel accepts hlt fresh hid).mp hz with hz | ⟨pair, stored, -⟩
      · exact safe.cancels z hz hid hk
      · rw [hk, fresh] at stored
        cases stored
    · obtain ⟨pair, stored, rfl⟩ := Option.map_eq_some_iff.mp stored'
      have merges := safe.merged fresh (_, pair) (OrderedMap.find?_eq_some.mp stored)
      rw [first_mem stored, r.merged_first_eventTime]
      rcases (hb.mem_request_cancel accepts hlt fresh hid).mp hz with hz | ⟨p, pstored, meets, hz, -⟩
      · obtain ⟨pending, hle⟩ := h.cancel_le z hz hid pair stored
        refine ⟨pending, ?_⟩
        split_ifs with moved
        · exact merges.2 moved z hz hid rfl
        · exact hle
      · rw [stored] at pstored
        obtain rfl := Option.some.inj pstored
        refine ⟨merges.1 meets, ?_⟩
        rw [meets, hz]
        exact (overlap_eq_covered.mp meets).2.1

theorem Accounted.request_resent (h : b.Accounted clock) (hb : b.Consistent)
    (hlt : r.startTime < r.endTime) (accepts : ¬ b.Refuses r) (hclock : clock ≤ r.now)
    {old : EventPair} (resent : b.eventMap.find? r.sequenceNumber = some old)
    (safe : b.AccountSafe r) : (b.request r).Accounted r.now := by
  have find := hb.resend_find? accepts resent
  have mem := fun z => hb.mem_resend (z := z) accepts resent hlt
  have interval := hb.interval resent
  have new_mem := newPair_first_mem hb hlt accepts
  have first_mem : ∀ {k pair}, k ≠ r.sequenceNumber → b.eventMap.find? k = some pair →
      (pair.first ∈ (b.request r).eventSet ↔ pair.first ∈ b.eventSet) := by
    intro k pair hk stored
    have number := (hb.interval stored).first
    have apart : ∀ {x : Event}, x.sequenceNumber = r.sequenceNumber → pair.first.key ≠ x.key := by
      intro x hx e
      exact hk (number.symm.trans ((Event.key_eq_iff.mp e).2.2.trans hx))
    rw [mem, or_iff_left, and_iff_left ⟨apart interval.first, apart interval.second⟩]
    rintro (e | e)
    · exact apart rfl (congrArg Event.key e)
    · exact apart rfl (congrArg Event.key e)
  have old_cancel : ∀ z ∈ (b.request r).eventSet, z.eventID = .cancelSetCurrentEvent →
      z ∈ b.eventSet := by
    intro z hz hid
    rcases (mem z).mp hz with hz | rfl | rfl
    · exact hz.1
    · simp [newPair, insertedPair, requestPair] at hid
    · simp [newPair, insertedPair, requestPair] at hid
  refine ⟨?_, fun k pair stored begun => ?_, fun z hz hid pair stored => ?_⟩
  · rw [request_currentMA, h.balance]
    refine (begunSum_congr fun k => ?_).symm
    rw [find]
    split_ifs with hk
    · rw [hk, resent, Option.elim_some, Option.elim_some, if_pos new_mem,
        if_pos (safe.resent old resent)]
    · cases stored : b.eventMap.find? k with
      | none => rfl
      | some pair => simp only [Option.elim_some, first_mem hk stored]
  · rw [find] at stored
    split_ifs at stored with hk
    · exact absurd (Option.some.inj stored ▸ new_mem) begun
    · rw [first_mem hk stored] at begun
      exact (h.begun_le k pair stored begun).trans hclock
  · have hz' := old_cancel z hz hid
    rw [find] at stored
    split_ifs at stored with hk
    · obtain rfl := Option.some.inj stored
      exact ⟨new_mem, safe.cancels z hz' hid hk⟩
    · rw [first_mem hk stored]
      exact h.cancel_le z hz' hid pair stored

theorem Accounted.request (h : b.Accounted clock) (hb : b.Consistent)
    (hlt : r.startTime < r.endTime) (hclock : clock ≤ r.now)
    (safe : b.Refuses r ∨ r.now ≤ r.startTime ∧ b.AccountSafe r) :
    (b.request r).Accounted r.now := by
  by_cases refuses : b.Refuses r
  · rw [request_of_refuses refuses]
    exact ⟨h.balance, fun k pair stored begun => (h.begun_le k pair stored begun).trans hclock,
      h.cancel_le⟩
  obtain ⟨hstart, safe⟩ := safe.resolve_left refuses
  cases stored : b.eventMap.find? r.sequenceNumber with
  | none => exact h.request_fresh hb hlt refuses hclock hstart stored safe
  | some old => exact h.request_resent hb hlt refuses hclock stored safe

end Request

section Batch

variable {b : Battery}

theorem first_mem_erase {s : EventSet} {k : ℕ} {pair : EventPair} (interval : pair.Interval k)
    {y : Event} (h : y.eventID ≠ .setCurrentBegin ∨ y.sequenceNumber ≠ k) :
    pair.first ∈ s.erase y ↔ pair.first ∈ s := by
  rw [OrderedSet.mem_erase]
  refine and_iff_left fun same => ?_
  obtain ⟨-, hid, number⟩ := Event.key_eq_iff.mp same
  rcases h with h | h
  · exact h (hid.symm.trans interval.first_eventID)
  · exact h (number.symm.trans interval.first)

theorem begunSum_applyEvent {y : Event} {rest : List Event} (h : Applying b (y :: rest))
    (hb : b.Consistent)
    (hy : y.eventID = .setCurrentBegin ∨ y.eventID = .setCurrentEnd → y ∈ b.eventSet) :
    (b.applyEvent y).begunSum = b.begunSum + delta y := by
  have others : ∀ m : EventMap, (∀ k pair, m.find? k = some pair →
      b.eventMap.find? k = some pair ∧ (y.eventID ≠ .setCurrentBegin ∨ y.sequenceNumber ≠ k)) →
      (m.sumBy fun _ pair => if pair.first ∈ b.eventSet.erase y then 0 else pair.first.currentMA) =
        m.sumBy fun _ pair => if pair.first ∈ b.eventSet then 0 else pair.first.currentMA := by
    intro m hm
    refine OrderedMap.sumBy_congr fun k => ?_
    cases stored : m.find? k with
    | none => rfl
    | some pair =>
        obtain ⟨stored', apart⟩ := hm k pair stored
        simp only [Option.elim_some, first_mem_erase (hb.interval stored') apart]
  have erased : ∀ k pair, (b.eventMap.erase y.sequenceNumber).find? k = some pair →
      b.eventMap.find? k = some pair ∧ (y.eventID ≠ .setCurrentBegin ∨ y.sequenceNumber ≠ k) := by
    intro k pair stored
    rw [OrderedMap.find?_erase] at stored
    split_ifs at stored with hk
    exact ⟨stored, .inr fun e => hk e.symm⟩
  unfold begunSum
  rw [applyEvent_eventSet]
  cases hid : y.eventID with
  | setCurrentBegin =>
      have hmem := hy (.inl hid)
      obtain ⟨pair, stored, first⟩ := hb.begin_stored hmem hid
      rw [applyEvent_eventMap_of_ne b (by simp [hid]), OrderedMap.sumBy_erase stored,
        OrderedMap.sumBy_erase stored, others _ erased, first, if_pos hmem, if_neg]
      · simp only [delta, hid]
        ring
      · exact fun hin => (OrderedSet.mem_erase.mp hin).2 rfl
  | setCurrentEnd =>
      have hmem := hy (.inr hid)
      obtain ⟨pair, stored, second⟩ := hb.end_stored hmem hid
      have current := (hb.interval stored).same_current
      rw [applyEvent_eventMap_end b hid, OrderedMap.sumBy_erase stored, others _ erased,
        if_neg (h.first_not_mem hb hid stored), ← current, second]
      simp only [delta, hid]
      ring
  | refresh | cancelSetCurrentEvent =>
      rw [applyEvent_eventMap_of_ne b (by simp [hid]),
        others _ fun k pair stored => ⟨stored, .inl (by simp [hid])⟩]
      simp [delta, hid]

theorem foldl_applyEvent_balance {eventVector : List Event} (h : Applying b eventVector)
    (hb : b.Consistent) (balance : b.currentMA = b.begunSum)
    (member : ∀ y ∈ eventVector, y.eventID = .setCurrentBegin ∨ y.eventID = .setCurrentEnd →
      y ∈ b.eventSet) :
    (eventVector.foldl applyEvent b).currentMA = (eventVector.foldl applyEvent b).begunSum := by
  induction eventVector generalizing b with
  | nil => exact balance
  | cons y rest ih =>
      refine ih h.step (h.consistent_step hb) ?_ fun x hx hid => ?_
      · rw [applyEvent_currentMA, begunSum_applyEvent h hb (member y List.mem_cons_self), balance]
      · rw [applyEvent_eventSet, OrderedSet.mem_erase]
        exact ⟨member x (List.mem_cons_of_mem y hx) hid,
          (List.rel_of_pairwise_cons h.sorted hx).ne'⟩

/-- The entry that a cancel drops has not begun, so the sum stays; and none of its events
has been collected. -/
theorem cancel_balance {c : Battery} {iter : Option Event} {now : ℤ} {eventVector : List Event}
    (hb : b.Consistent) (balance : b.currentMA = b.begunSum)
    (cancel_le : ∀ z ∈ b.eventSet, z.eventID = .cancelSetCurrentEvent →
      ∀ pair, b.eventMap.find? z.sequenceNumber = some pair →
        pair.first ∈ b.eventSet ∧ z.eventTime ≤ pair.first.eventTime)
    (walked : Walked now b eventVector iter) (h : b.cancel iter = some c) :
    c.currentMA = c.begunSum ∧ ∀ y ∈ eventVector,
      y.eventID = .setCurrentBegin ∨ y.eventID = .setCurrentEnd → y ∈ c.eventSet := by
  rcases cancel_eq_some h with ⟨rfl, -⟩ | ⟨x, pair, rfl, xid, stored, rfl⟩
  · exact ⟨balance, fun y hy _ => walked.member y hy⟩
  obtain ⟨pending, hle⟩ := cancel_le x (walked.iter_mem x rfl) xid pair stored
  have interval := hb.interval stored
  constructor
  · change b.currentMA = _
    rw [balance]
    unfold begunSum
    rw [OrderedMap.sumBy_erase stored, if_pos pending, zero_add]
    refine OrderedMap.sumBy_congr fun k => ?_
    cases stored' : (b.eventMap.erase x.sequenceNumber).find? k with
    | none => rfl
    | some pair' =>
        rw [OrderedMap.find?_erase] at stored'
        split_ifs at stored' with hk
        have interval' := hb.interval stored'
        have apart : ∀ y : Event, y.sequenceNumber = x.sequenceNumber →
            y.eventID ≠ .setCurrentBegin ∨ y.sequenceNumber ≠ k :=
          fun y hy => .inr fun e => hk (e.symm.trans hy)
        simp only [Option.elim_some, first_mem_erase interval' (apart _ interval.first),
          first_mem_erase interval' (apart _ interval.second), first_mem_erase interval' (apart x rfl)]
  · intro y hy hid
    refine ((mem_cancel h hb).1 hid).mpr ⟨walked.member y hy, ?_⟩
    rintro ⟨z, hz, -, number⟩
    obtain rfl := Option.some.inj hz
    have hlt := walked.before y hy x rfl
    have ordered := interval.ordered
    have late : pair.first.eventTime ≤ y.eventTime := by
      rcases hid with hid | hid
      · rw [hb.eq_first stored (walked.member y hy) number.symm hid]
      · rw [hb.eq_second stored (walked.member y hy) number.symm hid]
        exact ordered.le
    rw [Event.key_lt_iff, xid] at hlt
    rcases hid with hid | hid <;> simp only [hid, EventID.toInt] at hlt <;> omega

variable {driver : Driver} {fuel sequenceNumber sequenceNumber' : ℕ} {clock now : ℤ} {b' : Battery}
  {commanded : Option ℤ}

theorem Accounted.balance_runEventThread (h : b.Accounted clock) (hb : b.Consistent)
    (done : b.runEventThread driver fuel sequenceNumber now =
      .done b' sequenceNumber' commanded) : b'.currentMA = b'.begunSum := by
  obtain ⟨d, c, eventVector, iter, refreshed, walked, -, hcancel, result⟩ := runEventThread_done done
  have hd := refreshed.consistent hb
  have first_mem : ∀ {k pair}, b.eventMap.find? k = some pair →
      (pair.first ∈ d.eventSet ↔ pair.first ∈ b.eventSet) := fun stored =>
    refreshed.events _ (by simp [(hb.interval stored).first_eventID])
  have balance : d.currentMA = d.begunSum := by
    rw [refreshed.currentMA, h.balance]
    refine begunSum_congr fun k => ?_
    rw [refreshed.eventMap]
    cases stored : b.eventMap.find? k with
    | none => rfl
    | some pair => simp only [Option.elim_some, first_mem stored]
  have cancel_le : ∀ z ∈ d.eventSet, z.eventID = .cancelSetCurrentEvent →
      ∀ pair, d.eventMap.find? z.sequenceNumber = some pair →
        pair.first ∈ d.eventSet ∧ z.eventTime ≤ pair.first.eventTime := by
    intro z hz hid pair stored
    rw [refreshed.eventMap] at stored
    rw [first_mem stored]
    exact h.cancel_le z ((refreshed.events z (by simp [hid])).mp hz) hid pair stored
  obtain ⟨balance, member⟩ := cancel_balance hd balance cancel_le walked hcancel
  have hc := cancel_consistent hcancel hd
  by_cases empty : c.eventSet.elems = []
  · rw [applyEvents_of_empty driver empty] at result
    obtain rfl : b' = c := congrArg Prod.fst result
    exact balance
  · obtain ⟨status, _, happly, -⟩ := applyEvents_of_nonempty driver empty eventVector
    rw [happly] at result
    obtain rfl := (Prod.ext_iff.mp result).1
    exact foldl_applyEvent_balance (walked.applying hd hcancel) hc balance member

theorem Accounted.runEventThread (h : b.Accounted clock) (hb : b.Consistent) (hclock : clock ≤ now)
    (done : b.runEventThread driver fuel sequenceNumber now =
      .done b' sequenceNumber' commanded) : b'.Accounted now := by
  obtain ⟨_, _, batch, -⟩ := hb.processed done
  refine ⟨h.balance_runEventThread hb done, fun k pair stored begun => ?_,
    fun z hz hid pair stored => ?_⟩
  · obtain ⟨stored, other, -⟩ := (batch.find? k pair).mp stored
    have interval := hb.interval stored
    rw [batch.mem_setCurrent _ (.inl interval.first_eventID), interval.first] at begun
    by_cases pending : pair.first ∈ b.eventSet
    · by_contra late
      exact begun ⟨pending, other, fun hin => late (batch.due _ hin)⟩
    · exact (h.begun_le k pair stored pending).trans hclock
  · obtain ⟨hz', -⟩ := (batch.mem_cancel z hid).mp hz
    obtain ⟨stored, other, -⟩ := (batch.find? _ pair).mp stored
    have interval := hb.interval stored
    obtain ⟨pending, hle⟩ := h.cancel_le z hz' hid pair stored
    refine ⟨(batch.mem_setCurrent _ (.inl interval.first_eventID)).mpr ⟨pending, ?_, ?_⟩, hle⟩
    · rwa [interval.first]
    · intro hin
      obtain ⟨-, x, hx, hxz⟩ := batch.later hz (by simp [hid])
      have hlt := (batch.before _ hin x hx).trans_le hxz
      rw [Event.key_lt_iff, interval.first_eventID, hid] at hlt
      simp only [EventID.toInt, reduceCtorEq, false_and, or_false] at hlt
      omega

end Batch

end Battery

namespace Scheduler

variable {driver : Driver} {start σ : Scheduler}

/-- Runs of account-safe requests that start no earlier than they are accepted: the running
current is that of the begun entries, and nothing is left over when no entry is. -/
theorem currentMA_eq_begunSum (idle : start.battery.Idle)
    (run : Run driver (fun b r => b.Refuses r ∨ r.now ≤ r.startTime ∧ b.AccountSafe r) start σ) :
    σ.battery.currentMA = σ.battery.begunSum ∧
      (σ.battery.eventMap = ∅ → σ.battery.currentMA = 0) := by
  have accounted := run.battery_invariant (fun b clock => b.Consistent ∧ b.Accounted clock)
    ⟨idle.consistent, idle.accounted _⟩
    (fun b r _ hclock hlt safe h => ⟨h.1.request hlt, h.2.request h.1 hlt hclock safe⟩)
    (fun b b' _ _ _ _ _ _ hclock h done =>
      ⟨h.1.runEventThread done, h.2.runEventThread h.1 hclock done⟩)
  refine ⟨accounted.2.balance, fun empty => ?_⟩
  rw [accounted.2.balance, Battery.begunSum, empty, OrderedMap.sumBy_empty]

theorem currentMA_eq_begunSum_nested : ∃ σ,
    Run .still (fun b r => b.Refuses r ∨ r.now ≤ r.startTime ∧ b.AccountSafe r)
      (initial 1000 1000) σ ∧ σ.battery.begunSum = 300 ∧ σ.battery.currentMA = 300 := by
  have computed : ((initial 1000 1000).exec .still
      (fun b r => b.Refuses r ∨ r.now ≤ r.startTime ∧ b.AccountSafe r) 10
      [.schedule 0 100 10 40, .schedule 5 300 20 30, .batch 10, .batch 20]).any
      (fun σ => σ.battery.begunSum = 300) = true := by
    decide +kernel
  obtain ⟨σ, run, sum⟩ := exists_run_of_exec computed
  have sum := of_decide_eq_true sum
  exact ⟨σ, run, sum, (currentMA_eq_begunSum (initial_idle 1000 1000) run).1.trans sum⟩

/-- A request for `[10, 20)` at 10, when the entry for `[10, 20)` has just begun: the cancel
drops the entry and its current stays. -/
theorem begun_entry_cancelled : ∃ σ,
    Run .still (fun b r => ¬ b.Refuses r ∧ r.now ≤ r.startTime) (initial 1000 1000) σ ∧
      (initial 1000 1000).battery.Idle ∧ σ.battery.eventMap.elems = [] ∧
      σ.battery.begunSum = 0 ∧ σ.battery.currentMA = 100 := by
  have computed : ((initial 1000 1000).exec .still
      (fun b r => ¬ b.Refuses r ∧ r.now ≤ r.startTime) 10
      [.schedule 0 100 10 20, .batch 10, .schedule 10 100 10 20, .batch 10, .batch 10,
        .batch 20]).any
      (fun σ => σ.battery.eventMap.elems = [] ∧ σ.battery.begunSum = 0 ∧
        σ.battery.currentMA = 100) = true := by
    decide +kernel
  obtain ⟨σ, run, broken⟩ := exists_run_of_exec computed
  exact ⟨σ, run, initial_idle 1000 1000, of_decide_eq_true broken⟩

end Scheduler

end BatteryOS.V3
