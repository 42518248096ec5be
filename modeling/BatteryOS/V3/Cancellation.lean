import BatteryOS.V3.Run

/-! Cancels. A covered interval stays in the map until its cancel comes up, so it can
be covered again or cut short in the meantime, and then its cancel outlives it. The
requests that do neither keep every cancel before the END of a stored interval. -/

namespace BatteryOS.V3

namespace Battery

def CancelsStored (b : Battery) : Prop :=
  ∀ z ∈ b.eventSet, z.eventID = .cancelSetCurrentEvent →
    (b.eventMap.find? z.sequenceNumber).isSome = true

instance (b : Battery) : Decidable b.CancelsStored :=
  inferInstanceAs (Decidable (∀ z ∈ b.eventSet, z.eventID = .cancelSetCurrentEvent →
    (b.eventMap.find? z.sequenceNumber).isSome = true))

theorem CancelsStored.ne_outOfRange {b : Battery} (h : b.CancelsStored) (driver : Driver)
    (fuel sequenceNumber : ℕ) (now : ℤ) :
    b.runEventThread driver fuel sequenceNumber now ≠ .outOfRange := by
  intro out
  obtain ⟨z, hz, hid, absent⟩ := runEventThread_outOfRange out
  have stored := h z hz hid
  rw [absent] at stored
  cases stored

/-- A request meets the queued cancels of its name only where they stand: it covers a
cancelled interval from the same start again, or cuts one short at or after its cancel. -/
def MergesCancels (b : Battery) (r : Request) : Prop :=
  ∀ q ∈ b.eventMap, ∀ z ∈ b.eventSet, z.eventID = .cancelSetCurrentEvent →
    z.sequenceNumber = q.1 →
      (r.meets q.2 = .covered → z.eventTime = r.startTime) ∧
      (r.meets q.2 = .endMoved → z.eventTime ≤ r.startTime)

instance (b : Battery) (r : Request) : Decidable (b.MergesCancels r) :=
  inferInstanceAs (Decidable (∀ q ∈ b.eventMap, ∀ z ∈ b.eventSet,
    z.eventID = .cancelSetCurrentEvent → z.sequenceNumber = q.1 →
      (r.meets q.2 = .covered → z.eventTime = r.startTime) ∧
      (r.meets q.2 = .endMoved → z.eventTime ≤ r.startTime)))

/-- A new number merges with the cancels; a number sent again ends at or after its own. -/
@[mk_iff] structure CancelSafe (b : Battery) (r : Request) : Prop where
  merged : b.eventMap.find? r.sequenceNumber = none → b.MergesCancels r
  resent : b.eventMap.find? r.sequenceNumber ≠ none → ∀ z ∈ b.eventSet,
    z.eventID = .cancelSetCurrentEvent → z.sequenceNumber = r.sequenceNumber →
      z.eventTime ≤ r.endTime

instance (b : Battery) (r : Request) : Decidable (b.CancelSafe r) :=
  decidable_of_iff _ (cancelSafe_iff b r).symm

/-- Cancels come no later than the END of the entry they name, one for each entry. -/
structure CancelOrder (b : Battery) : Prop where
  stored : ∀ z ∈ b.eventSet, z.eventID = .cancelSetCurrentEvent →
    ∃ pair, b.eventMap.find? z.sequenceNumber = some pair ∧ z.eventTime ≤ pair.second.eventTime
  unique : ∀ y ∈ b.eventSet, ∀ z ∈ b.eventSet, y.eventID = .cancelSetCurrentEvent →
    z.eventID = .cancelSetCurrentEvent → y.sequenceNumber = z.sequenceNumber → y = z

theorem CancelOrder.cancelsStored {b : Battery} (h : b.CancelOrder) : b.CancelsStored := by
  intro z hz hid
  obtain ⟨pair, stored, -⟩ := h.stored z hz hid
  rw [stored]
  rfl

theorem Idle.cancelOrder {b : Battery} (h : b.Idle) : b.CancelOrder where
  stored z hz hid := by simp [h.eventSet z hz] at hid
  unique y hy _ _ hid := by simp [h.eventSet y hy] at hid

theorem CancelOrder.congr {b b' : Battery} (h : b.CancelOrder) (map : b'.eventMap = b.eventMap)
    (same : ∀ z, z.eventID = .cancelSetCurrentEvent → (z ∈ b'.eventSet ↔ z ∈ b.eventSet)) :
    b'.CancelOrder where
  stored z hz hid := map ▸ h.stored z ((same z hid).mp hz) hid
  unique y hy z hz yid zid := h.unique y ((same y yid).mp hy) z ((same z zid).mp hz) yid zid

section Request

variable {b : Battery} {r : Request}

theorem CancelOrder.insert_fresh (h : b.CancelOrder) (hb : b.Consistent)
    (hlt : r.startTime < r.endTime) (fresh : b.eventMap.find? r.sequenceNumber = none)
    (safe : b.CancelSafe r) : (b.insertRequest r).CancelOrder := by
  have find := hb.inserted_find? fresh
  have merged : ∀ {k pair}, b.eventMap.find? k = some pair →
      (b.insertRequest r).eventMap.find? k = some (r.merged pair) := by
    intro k pair stored
    rw [find, if_neg, stored]
    · rfl
    · rintro rfl
      simp [fresh] at stored
  constructor
  · intro z hz hid
    rcases (hb.mem_inserted_cancel fresh hlt hid).mp hz with hz | ⟨pair, stored, meets, hz, -⟩
    · obtain ⟨pair, stored, hle⟩ := h.stored z hz hid
      refine ⟨_, merged stored, ?_⟩
      rw [Request.merged_second_eventTime]
      split_ifs with meets
      · exact (safe.merged fresh (_, pair) (OrderedMap.find?_eq_some.mp stored) z hz hid rfl).2 meets
      · exact hle
    · refine ⟨_, merged stored, ?_⟩
      have inside := (overlap_eq_covered.mp meets).2
      have ordered := (hb.interval stored).ordered
      rw [Request.merged_second_eventTime, meets, hz]
      exact inside.1.trans ordered.le
  · have once : ∀ y ∈ b.eventSet, y.eventID = .cancelSetCurrentEvent → ∀ z pair,
        b.eventMap.find? z.sequenceNumber = some pair → r.meets pair = .covered →
        z = cancelEvent r.name r.startTime pair → (∀ x ∈ b.eventSet, x.key ≠ z.key) →
        y.sequenceNumber ≠ z.sequenceNumber := by
      intro y hy hid z pair stored meets hz free number
      have start :=
        (safe.merged fresh (_, pair) (OrderedMap.find?_eq_some.mp stored) y hy hid number).1 meets
      exact free y hy (Event.key_eq_iff.mpr ⟨start.trans (hz ▸ rfl), hid.trans (hz ▸ rfl), number⟩)
    intro y hy z hz yid zid number
    rcases (hb.mem_inserted_cancel fresh hlt yid).mp hy with hy | ⟨p, pstored, pmeets, hy, yfree⟩
      <;> rcases (hb.mem_inserted_cancel fresh hlt zid).mp hz with
        hz | ⟨q, qstored, qmeets, hz, zfree⟩
    · exact h.unique y hy z hz yid zid number
    · exact absurd number (once y hy yid z q qstored qmeets hz zfree)
    · exact absurd number.symm (once z hz zid y p pstored pmeets hy yfree)
    · rw [number, qstored] at pstored
      rw [hy, hz, Option.some.inj pstored]

theorem CancelOrder.insert_resent (h : b.CancelOrder) (hb : b.Consistent)
    (hlt : r.startTime < r.endTime) {pair : EventPair}
    (stored : b.eventMap.find? r.sequenceNumber = some pair) (safe : b.CancelSafe r) :
    (b.insertRequest r).CancelOrder := by
  have kept : ∀ {z}, z ∈ (b.insertRequest r).eventSet → z.eventID = .cancelSetCurrentEvent →
      z ∈ b.eventSet := by
    intro z hz hid
    rcases (hb.mem_reinserted stored hlt).mp hz with hz | rfl | rfl
    · exact hz.1
    · simp [newPair, insertedPair, requestPair] at hid
    · simp [newPair, insertedPair, requestPair] at hid
  constructor
  · intro z hz hid
    rw [hb.reinserted_find? stored]
    split_ifs with number
    · exact ⟨_, rfl, safe.resent (by simp [stored]) z (kept hz hid) hid number⟩
    · exact h.stored z (kept hz hid) hid
  · intro y hy z hz yid zid
    exact h.unique y (kept hy yid) z (kept hz zid) yid zid

theorem CancelOrder.insert (h : b.CancelOrder) (hb : b.Consistent)
    (hlt : r.startTime < r.endTime) (safe : b.CancelSafe r) : (b.insertRequest r).CancelOrder := by
  cases stored : b.eventMap.find? r.sequenceNumber with
  | none => exact h.insert_fresh hb hlt stored safe
  | some pair => exact h.insert_resent hb hlt stored safe

theorem CancelOrder.request (h : b.CancelOrder) (hb : b.Consistent)
    (hlt : r.startTime < r.endTime) (safe : b.Refuses r ∨ b.CancelSafe r) :
    (b.request r).CancelOrder := by
  by_cases refuses : b.Refuses r
  · rwa [request_of_refuses refuses]
  · rw [request_eq_insertRequest refuses]
    exact h.insert hb hlt (safe.resolve_left refuses)

end Request

/-- A cancel that is still queued after a batch has kept its entry: the END of the entry
sorts after the cancel, so the batch has not come to it. -/
theorem CancelOrder.processed {now : ℤ} {b b' : Battery} {eventVector : List Event}
    {iter : Option Event} (h : b.CancelOrder) (hb : b.Consistent)
    (batch : Processed now b b' eventVector iter) : b'.CancelOrder := by
  have kept : ∀ {z}, z ∈ b'.eventSet → z.eventID = .cancelSetCurrentEvent → z ∈ b.eventSet :=
    fun hz hid => ((batch.mem_cancel _ hid).mp hz).1
  constructor
  · intro z hz hid
    have hz' := (batch.mem_cancel z hid).mp hz
    obtain ⟨pair, stored, hle⟩ := h.stored z hz'.1 hid
    refine ⟨pair, (batch.find? _ _).mpr ⟨stored, ?_, ?_⟩, hle⟩
    · rintro ⟨x, hx, xid, number⟩
      have hx' := batch.iter_mem x hx (by simp [xid])
      exact hz'.2 x hx (congrArg _ (h.unique z hz'.1 x hx' hid xid number.symm))
    · intro y hy yid number
      obtain ⟨-, x, hx, hxz⟩ := batch.later hz (by simp [hid])
      have hyz := (batch.before y hy x hx).trans_le hxz
      have hy' := hb.eq_second stored (batch.member y hy (by simp [yid])) number yid
      rw [Event.key_lt_iff, yid, hid] at hyz
      simp only [EventID.toInt] at hyz
      rw [← hy'] at hle
      omega
  · intro y hy z hz yid zid
    exact h.unique y (kept hy yid) z (kept hz zid) yid zid

end Battery

end BatteryOS.V3
