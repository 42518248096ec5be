import BatteryOS.V3.Accounting

/-! The current that is scheduled over a stretch of time: what the entries that span it
add up to, leaving out those that wait for their cancel. A request that touches every
stored interval of its name replaces the current inside its own interval, leaves the
stretches beside it alone, and cuts a stretch that reaches over its border down to the
entries that contain both. -/

namespace BatteryOS.V3

/-- The stretch whose entries a request leaves over `[p, q)`: those that contain the request
where `[p, q)` lies inside it, those of `[p, q)` itself beside it, and those that contain both
across its border. -/
def Request.window (r : Request) (p q : ℤ) : ℤ × ℤ :=
  if r.startTime ≤ p ∧ q ≤ r.endTime then (r.startTime, r.endTime + 1)
  else if q ≤ r.startTime ∨ r.endTime ≤ p then (p, q)
  else (min p r.startTime, max q (r.endTime + 1))

namespace Battery

def Cancelled (b : Battery) (k : ℕ) : Prop :=
  ∃ z ∈ b.eventSet, z.eventID = .cancelSetCurrentEvent ∧ z.sequenceNumber = k

instance (b : Battery) (k : ℕ) : Decidable (b.Cancelled k) :=
  inferInstanceAs (Decidable (∃ z ∈ b.eventSet,
    z.eventID = .cancelSetCurrentEvent ∧ z.sequenceNumber = k))

/-- What is scheduled over the whole of `[p, q)`. -/
def flow (b : Battery) (p q : ℤ) : ℤ :=
  b.eventMap.sumBy fun k pair =>
    if ¬ b.Cancelled k ∧ pair.first.eventTime ≤ p ∧ q ≤ pair.second.eventTime
    then pair.first.currentMA else 0

/-- A request leaves no gap to a live entry that carries current, and covers none that has
begun. -/
def TouchesLive (b : Battery) (r : Request) : Prop :=
  ∀ q ∈ b.eventMap, ¬ b.Cancelled q.1 →
    (q.2.first.currentMA = 0 ∨
      r.startTime ≤ q.2.second.eventTime ∧ q.2.first.eventTime ≤ r.endTime) ∧
    (r.meets q.2 = .covered → q.2.first ∈ b.eventSet)

instance (b : Battery) (r : Request) : Decidable (b.TouchesLive r) :=
  inferInstanceAs (Decidable (∀ q ∈ b.eventMap, ¬ b.Cancelled q.1 →
    (q.2.first.currentMA = 0 ∨
      r.startTime ≤ q.2.second.eventTime ∧ q.2.first.eventTime ≤ r.endTime) ∧
    (r.meets q.2 = .covered → q.2.first ∈ b.eventSet)))

/-- A request does not lie inside a cancelled entry that carries current, covers one from the
start of its cancel only, and moves no BEGIN past a cancel. -/
def MeetsCancelled (b : Battery) (r : Request) : Prop :=
  ∀ q ∈ b.eventMap, ∀ z ∈ b.eventSet, z.eventID = .cancelSetCurrentEvent →
    z.sequenceNumber = q.1 →
      (r.meets q.2 = .nested → q.2.first.currentMA = 0) ∧
      (r.meets q.2 = .covered → z.eventTime = r.startTime) ∧
      (r.meets q.2 = .beginMoved → z.eventTime ≤ r.endTime)

instance (b : Battery) (r : Request) : Decidable (b.MeetsCancelled r) :=
  inferInstanceAs (Decidable (∀ q ∈ b.eventMap, ∀ z ∈ b.eventSet,
    z.eventID = .cancelSetCurrentEvent → z.sequenceNumber = q.1 →
      (r.meets q.2 = .nested → q.2.first.currentMA = 0) ∧
      (r.meets q.2 = .covered → z.eventTime = r.startTime) ∧
      (r.meets q.2 = .beginMoved → z.eventTime ≤ r.endTime)))

@[mk_iff] structure MergeSafe (b : Battery) (r : Request) : Prop where
  fresh : b.eventMap.find? r.sequenceNumber = none
  live : b.TouchesLive r
  cancelled : b.MeetsCancelled r

instance (b : Battery) (r : Request) : Decidable (b.MergeSafe r) :=
  decidable_of_iff _ (mergeSafe_iff b r).symm

def OwnEntries (b : Battery) : Prop :=
  ∀ k pair, b.eventMap.find? k = some pair → pair.first.batteryName = b.batteryName

/-- What the scheduler keeps over runs of merge-safe requests under its own name. -/
structure Scheduled (b : Battery) (clock : ℤ) : Prop where
  consistent : b.Consistent
  order : b.CancelOrder
  accounted : b.Accounted clock
  own : b.OwnEntries

theorem Idle.scheduled {b : Battery} (h : b.Idle) (clock : ℤ) : b.Scheduled clock :=
  ⟨h.consistent, h.cancelOrder, h.accounted clock, fun k pair stored => by
    simp [h.eventMap] at stored⟩

theorem Cancelled.stored {b : Battery} {k : ℕ} (h : b.Cancelled k) (order : b.CancelOrder) :
    ∃ pair, b.eventMap.find? k = some pair := by
  obtain ⟨z, hz, hid, rfl⟩ := h
  obtain ⟨pair, stored, -⟩ := order.stored z hz hid
  exact ⟨pair, stored⟩

section Request

variable {b : Battery} {r : Request} {clock : ℤ}

theorem MergeSafe.cancelSafe (safe : b.MergeSafe r) (h : b.Accounted clock) : b.CancelSafe r where
  merged _ q hq z hz hid number := by
    refine ⟨(safe.cancelled q hq z hz hid number).2.1, fun moved => ?_⟩
    have hle := (h.cancel_le z hz hid q.2 (number ▸ OrderedMap.find?_eq_some.mpr hq)).2
    have := (overlap_eq_endMoved.mp moved).2.1
    omega
  resent stored := absurd safe.fresh stored

theorem MergeSafe.accountSafe (safe : b.MergeSafe r) (h : b.Accounted clock)
    (order : b.CancelOrder) : b.AccountSafe r where
  merged _ q hq := by
    refine ⟨fun covered => ?_, fun moved z hz hid number =>
      (safe.cancelled q hq z hz hid number).2.2 moved⟩
    by_cases cancelled : b.Cancelled q.1
    · obtain ⟨z, hz, hid, number⟩ := cancelled
      exact (h.cancel_le z hz hid q.2 (number ▸ OrderedMap.find?_eq_some.mpr hq)).1
    · exact (safe.live q hq cancelled).2 covered
  resent pair stored := by simp [safe.fresh] at stored
  cancels z hz hid number := by
    obtain ⟨pair, stored, -⟩ := order.stored z hz hid
    rw [number, safe.fresh] at stored
    cases stored

theorem request_batteryName (b : Battery) (r : Request) :
    (b.request r).batteryName = b.batteryName := by
  unfold request scheduleSetCurrent
  split_ifs <;> rfl

theorem startTime_of_accepts (name : r.name = b.batteryName) (accepts : ¬ b.Refuses r) :
    r.now ≤ r.startTime ∧ -b.status.maxChargingCurrentMA ≤ r.currentMA ∧
      r.currentMA ≤ b.status.maxDischargingCurrentMA := by
  simp only [Refuses, refuses, name, true_and, Bool.or_eq_true, decide_eq_true_eq, not_or,
    not_lt] at accepts
  refine ⟨accepts.1.1, ?_, accepts.2⟩
  linarith [accepts.1.2]

theorem Scheduled.request (h : b.Scheduled clock) (hlt : r.startTime < r.endTime)
    (hclock : clock ≤ r.now) (name : r.name = b.batteryName)
    (safe : b.Refuses r ∨ b.MergeSafe r) : (b.request r).Scheduled r.now where
  consistent := h.consistent.request hlt
  order := h.order.request h.consistent hlt (safe.imp_right fun safe => safe.cancelSafe h.accounted)
  accounted := by
    refine h.accounted.request h.consistent hlt hclock ?_
    by_cases refuses : b.Refuses r
    · exact .inl refuses
    · exact .inr ⟨(startTime_of_accepts name refuses).1,
        (safe.resolve_left refuses).accountSafe h.accounted h.order⟩
  own k pair' stored' := by
    rw [request_batteryName]
    by_cases refuses : b.Refuses r
    · rw [request_of_refuses refuses] at stored'
      exact h.own k pair' stored'
    · rw [h.consistent.request_find? refuses (safe.resolve_left refuses).fresh] at stored'
      split_ifs at stored' with hk
      · exact Option.some.inj stored' ▸ name
      · obtain ⟨pair, stored, rfl⟩ := Option.map_eq_some_iff.mp stored'
        rw [r.merged_batteryName]
        exact h.own k pair stored

theorem Scheduled.runEventThread {driver : Driver} {fuel sequenceNumber sequenceNumber' : ℕ}
    {now : ℤ} {b' : Battery} {commanded : Option ℤ} (h : b.Scheduled clock) (hclock : clock ≤ now)
    (done : b.runEventThread driver fuel sequenceNumber now =
      .done b' sequenceNumber' commanded) : b'.Scheduled now := by
  obtain ⟨_, _, batch, -⟩ := h.consistent.processed done
  exact ⟨h.consistent.runEventThread done, h.order.processed h.consistent batch,
    h.accounted.runEventThread h.consistent hclock done, fun k pair stored =>
      batch.batteryName ▸ h.own k pair ((batch.find? k pair).mp stored).1⟩

theorem merged_spans {k : ℕ} {pair : EventPair} (interval : pair.Interval k)
    (name : r.name = pair.first.batteryName)
    (touches : r.startTime ≤ pair.second.eventTime ∧ pair.first.eventTime ≤ r.endTime)
    {p q : ℤ} (hpq : p < q) :
    r.meets pair ≠ .covered ∧
        (r.merged pair).first.eventTime ≤ p ∧ q ≤ (r.merged pair).second.eventTime ↔
      pair.first.eventTime ≤ (r.window p q).1 ∧ (r.window p q).2 ≤ pair.second.eventTime := by
  have ordered := interval.ordered
  obtain ⟨hstart, hend⟩ := touches
  rw [r.merged_first_eventTime, r.merged_second_eventTime, Request.window]
  cases meets : r.meets pair with
  | otherName => exact absurd name (overlap_eq_otherName.mp meets)
  | untouched => exact absurd meets overlap_ne_untouched
  | covered =>
      have := (overlap_eq_covered.mp meets).2
      simp only [ne_eq, not_true_eq_false, false_and, false_iff]
      split_ifs <;> omega
  | nested =>
      have := (overlap_eq_nested.mp meets).2
      simp only [ne_eq, reduceCtorEq, not_false_eq_true, true_and, if_false]
      split_ifs <;> omega
  | endMoved =>
      have := (overlap_eq_endMoved.mp meets).2
      simp only [ne_eq, reduceCtorEq, not_false_eq_true, true_and, if_false, if_true]
      split_ifs <;> omega
  | beginMoved =>
      have := (overlap_eq_beginMoved.mp meets).2
      simp only [ne_eq, reduceCtorEq, not_false_eq_true, true_and, if_false, if_true]
      split_ifs <;> omega

theorem Scheduled.request_cancelled (h : b.Scheduled clock) (hlt : r.startTime < r.endTime)
    (accepts : ¬ b.Refuses r) (fresh : b.eventMap.find? r.sequenceNumber = none) {k : ℕ}
    {pair : EventPair} (stored : b.eventMap.find? k = some pair) :
    (b.request r).Cancelled k ↔ b.Cancelled k ∨ r.meets pair = .covered := by
  have interval := h.consistent.interval stored
  constructor
  · rintro ⟨z, hz, hid, number⟩
    rcases (h.consistent.mem_request_cancel accepts hlt fresh hid).mp hz with hz | ⟨p, pstored, meets, -⟩
    · exact .inl ⟨z, hz, hid, number⟩
    · rw [number, stored] at pstored
      exact .inr (Option.some.inj pstored ▸ meets)
  · rintro (⟨z, hz, hid, number⟩ | covered)
    · exact ⟨z, (h.consistent.mem_request_cancel accepts hlt fresh hid).mpr (.inl hz), hid, number⟩
    · by_cases taken : ∃ y ∈ b.eventSet, y.key = (cancelEvent r.name r.startTime pair).key
      · obtain ⟨y, hy, same⟩ := taken
        obtain ⟨-, hid, number⟩ := Event.key_eq_iff.mp same
        exact ⟨y, (h.consistent.mem_request_cancel accepts hlt fresh hid).mpr (.inl hy), hid,
          number.trans interval.first⟩
      · push Not at taken
        refine ⟨cancelEvent r.name r.startTime pair, (h.consistent.mem_request_cancel accepts hlt fresh
          rfl).mpr (.inr ⟨pair, ?_, covered, rfl, taken⟩), rfl, interval.first⟩
        exact (congrArg _ interval.first).trans stored

theorem Scheduled.not_cancelled_new (h : b.Scheduled clock) (hlt : r.startTime < r.endTime)
    (accepts : ¬ b.Refuses r) (fresh : b.eventMap.find? r.sequenceNumber = none) :
    ¬ (b.request r).Cancelled r.sequenceNumber := by
  rintro ⟨z, hz, hid, number⟩
  rcases (h.consistent.mem_request_cancel accepts hlt fresh hid).mp hz with hz | ⟨p, stored, -⟩
  · obtain ⟨pair, stored⟩ := Cancelled.stored ⟨z, hz, hid, number⟩ h.order
    rw [fresh] at stored
    cases stored
  · rw [number, fresh] at stored
    cases stored

theorem Consistent.request_eventMap (hb : b.Consistent) (accepts : ¬ b.Refuses r)
    (fresh : b.eventMap.find? r.sequenceNumber = none) :
    (b.request r).eventMap = (b.eventMap.mapValues r.merged).insert r.sequenceNumber (b.newPair r) := by
  refine OrderedMap.ext fun k => ?_
  rw [hb.request_find? accepts fresh, OrderedMap.find?_insert, OrderedMap.find?_mapValues,
    OrderedMap.find?_mapValues, fresh]
  rfl

theorem Scheduled.newPair_currentMA (h : b.Scheduled clock) (name : r.name = b.batteryName)
    (safe : b.MergeSafe r) : (b.newPair r).first.currentMA =
      truncate (r.currentMA - b.flow r.startTime (r.endTime + 1)) := by
  change truncate _ = _
  rw [checkMerge_targetCurrentMA _ _ _ _ h.consistent.numbered safe.fresh]
  congr 3
  change b.eventMap.sumBy (fun _ pair => nestedCurrent r.name r.startTime r.endTime pair) = _
  refine OrderedMap.sumBy_congr fun k => ?_
  cases stored : b.eventMap.find? k with
  | none => rfl
  | some pair =>
      have own : r.name = pair.first.batteryName := name.trans (h.own k pair stored).symm
      have nested : r.meets pair = .nested ↔
          pair.first.eventTime ≤ r.startTime ∧ r.endTime + 1 ≤ pair.second.eventTime :=
        overlap_eq_nested.trans ((and_iff_right own).trans Iff.rfl)
      simp only [Option.elim_some, nestedCurrent, ← Request.meets.eq_def, ← nested]
      by_cases cancelled : b.Cancelled k
      · obtain ⟨z, hz, hid, number⟩ := cancelled
        have zero := (safe.cancelled (k, pair) (OrderedMap.find?_eq_some.mp stored) z hz hid
          number).1
        have : b.Cancelled k := ⟨z, hz, hid, number⟩
        simp only [this, not_true_eq_false, false_and, if_false]
        split_ifs with meets
        · exact zero meets
        · rfl
      · simp only [cancelled, not_false_eq_true, true_and]

theorem Scheduled.merged_flow (h : b.Scheduled clock) (hlt : r.startTime < r.endTime)
    (accepts : ¬ b.Refuses r) (name : r.name = b.batteryName) (safe : b.MergeSafe r)
    {p q : ℤ} (hpq : p < q) :
    (b.eventMap.sumBy fun k pair =>
        if ¬ (b.request r).Cancelled k ∧
          (r.merged pair).first.eventTime ≤ p ∧ q ≤ (r.merged pair).second.eventTime
        then pair.first.currentMA else 0) = b.flow (r.window p q).1 (r.window p q).2 := by
  refine OrderedMap.sumBy_congr fun k => ?_
  cases stored : b.eventMap.find? k with
  | none => rfl
  | some pair =>
      have after := h.request_cancelled hlt accepts safe.fresh stored
      by_cases cancelled : b.Cancelled k
      · simp only [Option.elim_some, after, cancelled, true_or, not_true_eq_false, false_and,
          if_false]
      have live := safe.live (k, pair) (OrderedMap.find?_eq_some.mp stored) cancelled
      rcases live.1 with zero | touches
      · have zero : pair.first.currentMA = 0 := zero
        simp only [Option.elim_some, zero, ite_self]
      · have own : r.name = pair.first.batteryName := name.trans (h.own k pair stored).symm
        have spans := merged_spans (h.consistent.interval stored) own touches hpq
        simp only [Option.elim_some, after, cancelled, false_or, not_false_eq_true, true_and,
          ← spans, ne_eq]

theorem Scheduled.flow_request (h : b.Scheduled clock) (hlt : r.startTime < r.endTime)
    (accepts : ¬ b.Refuses r) (name : r.name = b.batteryName) (safe : b.MergeSafe r)
    {p q : ℤ} (hpq : p < q) : (b.request r).flow p q =
      b.flow (r.window p q).1 (r.window p q).2 +
        if r.startTime ≤ p ∧ q ≤ r.endTime then
          truncate (r.currentMA - b.flow r.startTime (r.endTime + 1)) else 0 := by
  have new : (b.eventMap.mapValues r.merged).find? r.sequenceNumber = none := by
    rw [OrderedMap.find?_mapValues, safe.fresh]
    rfl
  have spans : ¬ (b.request r).Cancelled r.sequenceNumber ∧
      (b.newPair r).first.eventTime ≤ p ∧ q ≤ (b.newPair r).second.eventTime ↔
        r.startTime ≤ p ∧ q ≤ r.endTime :=
    and_iff_right (h.not_cancelled_new hlt accepts safe.fresh)
  rw [flow, h.consistent.request_eventMap accepts safe.fresh, OrderedMap.sumBy_insert new,
    OrderedMap.sumBy_mapValues]
  simp only [r.merged_currentMA, spans]
  rw [h.merged_flow hlt accepts name safe hpq, h.newPair_currentMA name safe, add_comm]

end Request

section Batch

variable {b b' : Battery} {now : ℤ} {eventVector : List Event} {iter : Option Event}

theorem flow_processed (hb : b.Consistent) (batch : Processed now b b' eventVector iter) {p q : ℤ}
    (hpq : p < q) (past : ∀ y ∈ eventVector, y.eventTime ≤ p) : b'.flow p q = b.flow p q := by
  refine OrderedMap.sumBy_congr fun k => ?_
  cases stored : b.eventMap.find? k with
  | none =>
      have gone : b'.eventMap.find? k = none := by
        cases stored' : b'.eventMap.find? k with
        | none => rfl
        | some pair => simp [((batch.find? k pair).mp stored').1] at stored
      rw [gone]
      rfl
  | some pair =>
      by_cases cancels : CancelsAt iter k
      · obtain ⟨x, hx, hid, number⟩ := cancels
        have cancelled : b.Cancelled k := ⟨x, batch.iter_mem x hx (by simp [hid]), hid, number⟩
        have gone : b'.eventMap.find? k = none := by
          cases stored' : b'.eventMap.find? k with
          | none => rfl
          | some pair => exact absurd ⟨x, hx, hid, number⟩ ((batch.find? k pair).mp stored').2.1
        simp [gone, cancelled]
      by_cases ended : ∃ y ∈ eventVector, y.eventID = .setCurrentEnd ∧ y.sequenceNumber = k
      · obtain ⟨y, hy, hid, number⟩ := ended
        have second := hb.eq_second stored (batch.member y hy (by simp [hid])) number hid
        have early := past y hy
        rw [second] at early
        have gone : b'.eventMap.find? k = none := by
          cases stored' : b'.eventMap.find? k with
          | none => rfl
          | some pair => exact absurd number (((batch.find? k pair).mp stored').2.2 y hy hid)
        have : ¬ (q ≤ pair.second.eventTime) := by omega
        simp [gone, this]
      push Not at ended
      have stored' := (batch.find? k pair).mpr ⟨stored, cancels, ended⟩
      have same : b'.Cancelled k ↔ b.Cancelled k := by
        constructor
        · rintro ⟨z, hz, hid, number⟩
          exact ⟨z, ((batch.mem_cancel z hid).mp hz).1, hid, number⟩
        · rintro ⟨z, hz, hid, number⟩
          refine ⟨z, (batch.mem_cancel z hid).mpr ⟨hz, fun x hx same => cancels ?_⟩, hid, number⟩
          obtain ⟨-, xid, xnumber⟩ := Event.key_eq_iff.mp same
          exact ⟨x, hx, xid.symm.trans hid, xnumber.symm.trans number⟩
      simp only [stored', Option.elim_some, same]

theorem begunSum_eq_flow {clock p : ℤ} (hb : b.Consistent) (h : b.Accounted clock)
    (begun : ∀ k pair, b.eventMap.find? k = some pair → pair.first ∉ b.eventSet →
      pair.first.eventTime ≤ p)
    (pending : ∀ z ∈ b.eventSet, z.eventID = .setCurrentBegin ∨ z.eventID = .setCurrentEnd →
      p < z.eventTime) : b.begunSum = b.flow p (p + 1) := by
  refine OrderedMap.sumBy_congr fun k => ?_
  cases stored : b.eventMap.find? k with
  | none => rfl
  | some pair =>
      have interval := hb.interval stored
      have hend := pending _ (hb.second_mem stored) (.inr interval.second_eventID)
      by_cases first : pair.first ∈ b.eventSet
      · have late := pending _ first (.inl interval.first_eventID)
        have : ¬ pair.first.eventTime ≤ p := by omega
        simp [first, this]
      · have live : ¬ b.Cancelled k := by
          rintro ⟨z, hz, hid, number⟩
          exact first (h.cancel_le z hz hid pair (number ▸ stored)).1
        have spans : ¬ b.Cancelled k ∧ pair.first.eventTime ≤ p ∧ p + 1 ≤ pair.second.eventTime :=
          ⟨live, begun k pair stored first, hend⟩
        simp only [Option.elim_some, if_neg first, if_pos spans]

end Batch

end Battery

end BatteryOS.V3
