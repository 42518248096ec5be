import BatteryOS.V3.Consistency

/-! One batch of the event thread. The scan collects, in order, every set-current
event before the place where it stops; refreshes apart it changes nothing. What it
collected is then applied, after the cancel it may have stopped at. -/

namespace BatteryOS.V3

/-- `b'` is `b` after some refreshes: the status and queued REFRESH events may differ. -/
structure Refreshed (b b' : Battery) : Prop where
  batteryName : b'.batteryName = b.batteryName
  currentMA : b'.currentMA = b.currentMA
  eventMap : b'.eventMap = b.eventMap
  refreshMode : b'.refreshMode = b.refreshMode
  maxStaleness : b'.maxStaleness = b.maxStaleness
  mono : ∀ z ∈ b.eventSet, z ∈ b'.eventSet
  events : ∀ z, z.eventID ≠ .refresh → (z ∈ b'.eventSet ↔ z ∈ b.eventSet)

theorem Refreshed.refl (b : Battery) : Refreshed b b :=
  ⟨rfl, rfl, rfl, rfl, rfl, fun _ => id, fun _ _ => Iff.rfl⟩

theorem Refreshed.trans {b c d : Battery} (h : Refreshed b c) (h' : Refreshed c d) :
    Refreshed b d where
  batteryName := h'.batteryName.trans h.batteryName
  currentMA := h'.currentMA.trans h.currentMA
  eventMap := h'.eventMap.trans h.eventMap
  refreshMode := h'.refreshMode.trans h.refreshMode
  maxStaleness := h'.maxStaleness.trans h.maxStaleness
  mono z hz := h'.mono z (h.mono z hz)
  events z hz := (h'.events z hz).trans (h.events z hz)

theorem refreshAt_refreshed (driver : Driver) (now : ℤ) (b : Battery) (sequenceNumber : ℕ)
    {iter : Event} (h : iter.eventID = .refresh) :
    Refreshed b (b.refreshAt driver now sequenceNumber iter).1 := by
  unfold Battery.refreshAt
  split_ifs
  · refine ⟨rfl, rfl, rfl, rfl, rfl, fun z hz => ?_, fun z hz => ?_⟩
    · exact OrderedSet.mem_insert.mpr (.inl hz)
    · exact OrderedSet.mem_insert.trans (or_iff_left fun e => hz (e.1 ▸ h))
  · exact ⟨rfl, rfl, rfl, rfl, rfl, fun _ => id, fun _ _ => Iff.rfl⟩

def Before (z : Event) (iter : Option Event) : Prop := ∀ x, iter = some x → z.key < x.key

theorem not_before_some {x z : Event} : ¬ Before z (some x) ↔ x.key ≤ z.key := by
  simp [Before]

theorem lt_of_not_before_next {s : EventSet} {x z : Event} (h : ¬ Before z (s.next x)) :
    x.key < z.key := by
  cases hnext : s.next x with
  | none => exact absurd (fun y hy => by rw [hnext] at hy; cases hy) h
  | some y =>
      rw [hnext, not_before_some] at h
      exact (OrderedSet.next_eq_some hnext).2.1.trans_le h

theorem key_le_of_before_next {s : EventSet} {x z : Event} (hz : z ∈ s)
    (before : Before z (s.next x)) : z.key ≤ x.key := by
  cases hnext : s.next x with
  | none => exact OrderedSet.next_eq_none.mp hnext z hz
  | some y =>
      by_contra later
      exact absurd (before y hnext)
        (not_lt.mpr ((OrderedSet.next_eq_some hnext).2.2 z hz (not_le.mp later)))

theorem not_before_next {s : EventSet} {x z : Event} (hz : z ∈ s) (later : x.key < z.key) :
    ¬ Before z (s.next x) :=
  fun before => not_lt.mpr (key_le_of_before_next hz before) later

theorem not_before_begin {s : EventSet} {z : Event} (hz : z ∈ s) : ¬ Before z s.begin := by
  cases hbegin : s.begin with
  | none => exact absurd hz (OrderedSet.begin_eq_none.mp hbegin z)
  | some x => exact not_before_some.mpr ((OrderedSet.begin_eq_some hbegin).2 z hz)

/-- The state of the scan at `iter`: what is collected is due and in order, and holds
every set-current event of the set that comes before `iter`. -/
structure Walked (now : ℤ) (b : Battery) (eventVector : List Event) (iter : Option Event) :
    Prop where
  due : ∀ z ∈ eventVector, z.eventTime ≤ now
  no_cancel : ∀ z ∈ eventVector, z.eventID ≠ .cancelSetCurrentEvent
  member : ∀ z ∈ eventVector, z ∈ b.eventSet
  sorted : eventVector.Pairwise (fun x y => x.key < y.key)
  before : ∀ z ∈ eventVector, Before z iter
  complete : ∀ z ∈ b.eventSet, z.eventID ≠ .refresh → Before z iter → z ∈ eventVector
  iter_mem : ∀ x, iter = some x → x ∈ b.eventSet

theorem walked_begin (now : ℤ) (b : Battery) : Walked now b [] b.eventSet.begin where
  due := by simp
  no_cancel := by simp
  member := by simp
  sorted := .nil
  before := by simp
  complete _ hz _ hbefore := absurd hbefore (not_before_begin hz)
  iter_mem x h := (OrderedSet.begin_eq_some h).1

theorem Walked.next {now : ℤ} {b b' : Battery} {eventVector : List Event} {iter : Event}
    (h : Walked now b eventVector (some iter)) (refreshed : Refreshed b b')
    (due : iter.eventTime ≤ now) (no_cancel : iter.eventID ≠ .cancelSetCurrentEvent) :
    Walked now b' (eventVector ++ [iter]) (b'.eventSet.next iter) where
  due z hz := by
    rcases List.mem_append.mp hz with hz | hz
    · exact h.due z hz
    · rwa [List.mem_singleton.mp hz]
  no_cancel z hz := by
    rcases List.mem_append.mp hz with hz | hz
    · exact h.no_cancel z hz
    · rwa [List.mem_singleton.mp hz]
  member z hz := by
    rcases List.mem_append.mp hz with hz | hz
    · exact refreshed.mono z (h.member z hz)
    · exact refreshed.mono z (List.mem_singleton.mp hz ▸ h.iter_mem iter rfl)
  sorted := List.pairwise_append.mpr ⟨h.sorted, List.pairwise_singleton _ _, fun z hz x hx =>
    List.mem_singleton.mp hx ▸ h.before z hz iter rfl⟩
  before z hz x hx := by
    have hlt := (OrderedSet.next_eq_some hx).2.1
    rcases List.mem_append.mp hz with hz | hz
    · exact (h.before z hz iter rfl).trans hlt
    · rwa [List.mem_singleton.mp hz]
  complete z hz hid hbefore := by
    have hz' := (refreshed.events z hid).mp hz
    rcases (key_le_of_before_next hz hbefore).lt_or_eq with hlt | heq
    · exact List.mem_append_left _ (h.complete z hz' hid fun x hx => Option.some.inj hx ▸ hlt)
    · have same := OrderedSet.eq_of_key_eq hz' (h.iter_mem iter rfl) heq
      exact List.mem_append_right _ (List.mem_singleton.mpr same)
  iter_mem x hx := (OrderedSet.next_eq_some hx).1

/-- Where a scan that came to its end stands: past the set, at an event not yet due, or at a
cancel. -/
def Stopped (now : ℤ) (iter : Option Event) : Prop :=
  ∀ x, iter = some x → now < x.eventTime ∨ x.eventID = .cancelSetCurrentEvent

theorem scan_invariant {driver : Driver} {now : ℤ} {I : Scan → Prop}
    (collect : ∀ b n eventVector x, I ⟨b, n, eventVector, some x⟩ → x.eventTime ≤ now →
      x.eventID ≠ .refresh → x.eventID ≠ .cancelSetCurrentEvent →
      I ⟨b, n, eventVector ++ [x], b.eventSet.next x⟩)
    (refresh : ∀ b n eventVector x, I ⟨b, n, eventVector, some x⟩ → x.eventTime ≤ now →
      x.eventID = .refresh →
      let next := b.refreshAt driver now n x
      I ⟨next.1, next.2, eventVector ++ [x], next.1.eventSet.next x⟩)
    {fuel sequenceNumber : ℕ} {b : Battery} {eventVector : List Event} {iter : Option Event}
    {r : Scan} (h : scan driver now fuel b sequenceNumber eventVector iter = some r)
    (start : I ⟨b, sequenceNumber, eventVector, iter⟩) : I r ∧ Stopped now r.iter := by
  induction fuel generalizing b sequenceNumber eventVector iter with
  | zero => simp [scan] at h
  | succ fuel ih =>
      cases iter with
      | none =>
          obtain rfl : _ = r := by simpa only [scan, Option.some_inj] using h
          exact ⟨start, by simp [Stopped]⟩
      | some iter =>
          rw [scan] at h
          split_ifs at h with hdue
          · obtain rfl := Option.some.inj h
            exact ⟨start, fun x hx => .inl (Option.some.inj hx ▸ hdue)⟩
          have due : iter.eventTime ≤ now := not_lt.mp hdue
          cases hid : iter.eventID with
          | setCurrentBegin | setCurrentEnd =>
              simp only [hid] at h
              exact ih h (collect b _ _ iter start due (by simp [hid]) (by simp [hid]))
          | cancelSetCurrentEvent =>
              simp only [hid, Option.some_inj] at h
              obtain rfl := h
              exact ⟨start, fun x hx => .inr (Option.some.inj hx ▸ hid)⟩
          | refresh =>
              simp only [hid] at h
              exact ih h (refresh b _ _ iter start due hid)

theorem scan_walked {driver : Driver} {now : ℤ} {fuel : ℕ} {b : Battery} {sequenceNumber : ℕ}
    {eventVector : List Event} {iter : Option Event} {r : Scan}
    (h : scan driver now fuel b sequenceNumber eventVector iter = some r)
    (walked : Walked now b eventVector iter) :
    Refreshed b r.battery ∧ Walked now r.battery r.eventVector r.iter ∧ Stopped now r.iter := by
  obtain ⟨⟨refreshed, walked'⟩, stopped⟩ := scan_invariant
    (I := fun s => Refreshed b s.battery ∧ Walked now s.battery s.eventVector s.iter)
    (fun c n eventVector x inv due _ no_cancel => ⟨inv.1, inv.2.next (.refl c) due no_cancel⟩)
    (fun c n eventVector x inv due hid => by
      have refreshed := refreshAt_refreshed driver now c n hid
      exact ⟨inv.1.trans refreshed, inv.2.next refreshed due (by simp [hid])⟩)
    h ⟨.refl b, walked⟩
  exact ⟨refreshed, walked', stopped⟩

namespace Battery

def delta (event : Event) : ℤ :=
  match event.eventID with
  | .setCurrentBegin => event.currentMA
  | .setCurrentEnd => -event.currentMA
  | .refresh | .cancelSetCurrentEvent => 0

@[simp] theorem applyEvent_eventSet (b : Battery) (event : Event) :
    (b.applyEvent event).eventSet = b.eventSet.erase event := by
  unfold applyEvent
  split <;> rfl

@[simp] theorem applyEvent_currentMA (b : Battery) (event : Event) :
    (b.applyEvent event).currentMA = b.currentMA + delta event := by
  unfold applyEvent delta
  split <;> simp_all [sub_eq_add_neg]

theorem applyEvent_eventMap_end (b : Battery) {event : Event}
    (h : event.eventID = .setCurrentEnd) :
    (b.applyEvent event).eventMap = b.eventMap.erase event.sequenceNumber := by
  simp [applyEvent, h]

theorem applyEvent_eventMap_of_ne (b : Battery) {event : Event}
    (h : event.eventID ≠ .setCurrentEnd) : (b.applyEvent event).eventMap = b.eventMap := by
  unfold applyEvent
  split <;> simp_all

theorem mem_foldl_applyEvent (eventVector : List Event) (b : Battery) (z : Event) :
    z ∈ (eventVector.foldl applyEvent b).eventSet ↔
      z ∈ b.eventSet ∧ ∀ y ∈ eventVector, z.key ≠ y.key := by
  induction eventVector generalizing b with
  | nil => simp
  | cons x rest ih => simp [ih, OrderedSet.mem_erase, and_assoc]

theorem foldl_applyEvent_find? (eventVector : List Event) (b : Battery) (k : ℕ) :
    (eventVector.foldl applyEvent b).eventMap.find? k =
      if ∃ y ∈ eventVector, y.eventID = .setCurrentEnd ∧ y.sequenceNumber = k then none
      else b.eventMap.find? k := by
  induction eventVector generalizing b with
  | nil => simp
  | cons x rest ih =>
      rw [List.foldl_cons, ih]
      by_cases hx : x.eventID = .setCurrentEnd
      · rw [applyEvent_eventMap_end b hx, OrderedMap.find?_erase]
        by_cases hk : x.sequenceNumber = k
        · simp [hx, hk]
        · simp [hx, hk, Ne.symm hk]
      · rw [applyEvent_eventMap_of_ne b hx]
        simp [hx]

theorem cancel_eq_some {b c : Battery} {iter : Option Event} (h : b.cancel iter = some c) :
    c = b ∧ (∀ x, iter = some x → x.eventID ≠ .cancelSetCurrentEvent) ∨
    ∃ x pair, iter = some x ∧ x.eventID = .cancelSetCurrentEvent ∧
      b.eventMap.find? x.sequenceNumber = some pair ∧
      c = { b with
        eventSet := ((b.eventSet.erase pair.first).erase pair.second).erase x
        eventMap := b.eventMap.erase x.sequenceNumber } := by
  cases iter with
  | none => exact .inl ⟨(Option.some.inj h).symm, by simp⟩
  | some x =>
      rw [cancel] at h
      split_ifs at h with hid
      · obtain ⟨pair, stored, rfl⟩ := Option.map_eq_some_iff.mp h
        exact .inr ⟨x, pair, rfl, hid, stored, rfl⟩
      · exact .inl ⟨(Option.some.inj h).symm, fun y hy => Option.some.inj hy ▸ hid⟩

theorem applyEvents_of_empty (driver : Driver) {b : Battery} (h : b.eventSet.elems = [])
    (eventVector : List Event) : b.applyEvents driver eventVector = (b, none) := by
  simp [applyEvents, h]

theorem applyEvents_of_nonempty (driver : Driver) {b : Battery} (h : b.eventSet.elems ≠ [])
    (eventVector : List Event) : ∃ status commanded,
      b.applyEvents driver eventVector =
        ({ eventVector.foldl applyEvent b with status := status }, commanded) ∧
      ∀ v, commanded = some v → v = (eventVector.foldl applyEvent b).currentMA := by
  simp only [applyEvents, h, if_false]
  split_ifs with changed
  · exact ⟨_, _, rfl, fun v hv => (Option.some.inj hv).symm⟩
  · exact ⟨_, _, rfl, by simp⟩

theorem runEventThread_eq_done {driver : Driver} {fuel sequenceNumber sequenceNumber' : ℕ}
    {now : ℤ} {b b' : Battery} {commanded : Option ℤ}
    (h : b.runEventThread driver fuel sequenceNumber now = .done b' sequenceNumber' commanded) :
    ∃ s c, scan driver now fuel b sequenceNumber [] b.eventSet.begin = some s ∧
      s.battery.cancel s.iter = some c ∧ sequenceNumber' = s.sequenceNumber ∧
      (b', commanded) = c.applyEvents driver s.eventVector := by
  rw [runEventThread] at h
  cases hscan : scan driver now fuel b sequenceNumber [] b.eventSet.begin with
  | none => simp [hscan] at h
  | some s =>
      cases hcancel : s.battery.cancel s.iter with
      | none => simp [hscan, hcancel] at h
      | some c =>
          simp only [hscan, hcancel, Batch.done.injEq] at h
          exact ⟨s, c, rfl, hcancel, h.2.1.symm, Prod.ext h.1.symm h.2.2.symm⟩

/-- Everything one batch can do: the scan, the cancel it stopped at, the events collected. -/
theorem runEventThread_done {driver : Driver} {fuel sequenceNumber sequenceNumber' : ℕ} {now : ℤ}
    {b b' : Battery} {commanded : Option ℤ}
    (h : b.runEventThread driver fuel sequenceNumber now = .done b' sequenceNumber' commanded) :
    ∃ r c eventVector iter, Refreshed b r ∧ Walked now r eventVector iter ∧ Stopped now iter ∧
      r.cancel iter = some c ∧ (b', commanded) = c.applyEvents driver eventVector := by
  obtain ⟨s, c, hscan, hcancel, -, happly⟩ := runEventThread_eq_done h
  obtain ⟨refreshed, walked, stopped⟩ := scan_walked hscan (walked_begin now b)
  exact ⟨s.battery, c, s.eventVector, s.iter, refreshed, walked, stopped, hcancel, happly⟩

end Battery

def Driver.Keeps (driver : Driver) (P : BatteryStatus → Prop) : Prop :=
  (∀ now status, P status → P (driver.refresh now status)) ∧
    ∀ currentMA status, P status → P (driver.setCurrent currentMA status)

theorem scan_status {driver : Driver} {P : BatteryStatus → Prop} (keeps : driver.Keeps P) {now : ℤ}
    {fuel : ℕ} {b : Battery} {sequenceNumber : ℕ} {eventVector : List Event}
    {iter : Option Event} {r : Scan}
    (h : scan driver now fuel b sequenceNumber eventVector iter = some r) (hb : P b.status) :
    P r.battery.status := by
  refine (scan_invariant (I := fun s => P s.battery.status) ?_ ?_ h hb).1
  · exact fun c n eventVector x inv _ _ _ => inv
  · intro c n eventVector x inv _ _
    unfold Battery.refreshAt
    split_ifs <;> exact keeps.1 now c.status inv

theorem foldl_applyEvent_status (eventVector : List Event) (b : Battery) :
    (eventVector.foldl Battery.applyEvent b).status = b.status := by
  induction eventVector generalizing b with
  | nil => rfl
  | cons x rest ih =>
      rw [List.foldl_cons, ih]
      unfold Battery.applyEvent
      split <;> rfl

theorem Battery.runEventThread_status {driver : Driver} {P : BatteryStatus → Prop}
    (keeps : driver.Keeps P) {fuel sequenceNumber sequenceNumber' : ℕ} {now : ℤ}
    {b b' : Battery} {commanded : Option ℤ}
    (h : b.runEventThread driver fuel sequenceNumber now = .done b' sequenceNumber' commanded)
    (hb : P b.status) : P b'.status := by
  obtain ⟨s, c, hscan, hcancel, -, happly⟩ := runEventThread_eq_done h
  have hs := scan_status keeps hscan hb
  have hc : c.status = s.battery.status := by
    rcases cancel_eq_some hcancel with ⟨rfl, -⟩ | ⟨x, pair, -, -, -, rfl⟩ <;> rfl
  obtain rfl := congrArg Prod.fst happly
  unfold applyEvents
  dsimp only
  split_ifs
  · exact hc ▸ hs
  · exact keeps.2 _ _ (by rwa [foldl_applyEvent_status, hc])
  · rwa [foldl_applyEvent_status, hc]

section Consistency

variable {s t : EventSet} {m : EventMap}

theorem Consistent.congr (h : Consistent s m)
    (agree : ∀ z, z.eventID = .setCurrentBegin ∨ z.eventID = .setCurrentEnd → (z ∈ t ↔ z ∈ s)) :
    Consistent t m where
  interval := h.interval
  second_mem stored := (agree _ (.inr (h.interval stored).second_eventID)).mpr (h.second_mem stored)
  begin_stored hz hid := h.begin_stored ((agree _ (.inl hid)).mp hz) hid
  end_stored hz hid := h.end_stored ((agree _ (.inr hid)).mp hz) hid

theorem Consistent.erase_of_ne_end (h : Consistent s m) {x : Event}
    (hx : x.eventID ≠ .setCurrentEnd) : Consistent (s.erase x) m where
  interval := h.interval
  second_mem stored := OrderedSet.mem_erase.mpr ⟨h.second_mem stored, fun same =>
    hx ((Event.key_eq_iff.mp same).2.1 ▸ (h.interval stored).second_eventID)⟩
  begin_stored hz hid := h.begin_stored (OrderedSet.mem_erase.mp hz).1 hid
  end_stored hz hid := h.end_stored (OrderedSet.mem_erase.mp hz).1 hid

theorem Refreshed.consistent {b b' : Battery} (h : Refreshed b b') (hb : b.Consistent) :
    b'.Consistent := by
  unfold Battery.Consistent
  rw [h.eventMap]
  exact hb.congr fun z hz => h.events z (by rcases hz with hz | hz <;> simp [hz])

theorem cancel_consistent {b c : Battery} {iter : Option Event} (h : b.cancel iter = some c)
    (hb : b.Consistent) : c.Consistent := by
  rcases Battery.cancel_eq_some h with ⟨rfl, -⟩ | ⟨x, pair, -, hid, stored, rfl⟩
  · exact hb
  · exact (hb.erasePair stored).erase_of_ne_end (by simp [hid])

end Consistency

/-- Events about to be applied in order: an END among them is the stored one, and no BEGIN
that comes before one of them has been left out. -/
structure Applying (b : Battery) (eventVector : List Event) : Prop where
  sorted : eventVector.Pairwise (fun x y => x.key < y.key)
  stored : ∀ y ∈ eventVector, y.eventID = .setCurrentEnd →
    ∀ pair, b.eventMap.find? y.sequenceNumber = some pair → pair.second = y
  complete : ∀ z ∈ b.eventSet, z.eventID = .setCurrentBegin →
    ∀ y ∈ eventVector, z.key < y.key → z ∈ eventVector

theorem Walked.applying {now : ℤ} {b c : Battery} {eventVector : List Event}
    {iter : Option Event} (walked : Walked now b eventVector iter) (hb : b.Consistent)
    (h : b.cancel iter = some c) : Applying c eventVector := by
  have mem : ∀ z ∈ c.eventSet, z ∈ b.eventSet := by
    rcases Battery.cancel_eq_some h with ⟨rfl, -⟩ | ⟨x, pair, -, -, -, rfl⟩
    · exact fun _ => id
    · intro z hz
      exact (OrderedSet.mem_erase.mp (OrderedSet.mem_erase.mp (OrderedSet.mem_erase.mp hz).1).1).1
  have find : ∀ k pair, c.eventMap.find? k = some pair → b.eventMap.find? k = some pair := by
    rcases Battery.cancel_eq_some h with ⟨rfl, -⟩ | ⟨x, pair, -, -, -, rfl⟩
    · exact fun _ _ => id
    · intro k pair' stored
      rw [OrderedMap.find?_erase] at stored
      split_ifs at stored
      exact stored
  refine ⟨walked.sorted, fun y hy hid pair stored => ?_, fun z hz hid y hy hlt => ?_⟩
  · exact (hb.eq_second (find _ _ stored) (walked.member y hy) rfl hid).symm
  · exact walked.complete z (mem z hz) (by simp [hid])
      fun x hx => hlt.trans (walked.before y hy x hx)

theorem Applying.first_not_mem {b : Battery} {y : Event} {rest : List Event}
    (h : Applying b (y :: rest)) (hb : b.Consistent) (hid : y.eventID = .setCurrentEnd)
    {pair : EventPair} (stored : b.eventMap.find? y.sequenceNumber = some pair) :
    pair.first ∉ b.eventSet := by
  intro hmem
  have interval := hb.interval stored
  have hsecond := h.stored y List.mem_cons_self hid pair stored
  have hlt : pair.first.key < y.key := by
    rw [Event.key_lt_iff, ← hsecond]
    exact .inl interval.ordered
  have hin := h.complete _ hmem interval.first_eventID y List.mem_cons_self hlt
  rcases List.mem_cons.mp hin with e | hin
  · have hbegin : y.eventID = .setCurrentBegin := e ▸ interval.first_eventID
    simp [hid] at hbegin
  · exact absurd hlt (List.rel_of_pairwise_cons h.sorted hin).asymm

theorem Applying.consistent_step {b : Battery} {y : Event} {rest : List Event}
    (h : Applying b (y :: rest)) (hb : b.Consistent) : (b.applyEvent y).Consistent := by
  unfold Battery.Consistent
  rw [Battery.applyEvent_eventSet]
  by_cases hid : y.eventID = .setCurrentEnd
  · rw [Battery.applyEvent_eventMap_end b hid]
    cases stored : b.eventMap.find? y.sequenceNumber with
    | none =>
        have same : b.eventMap.erase y.sequenceNumber = b.eventMap := OrderedMap.ext fun k => by
          rw [OrderedMap.find?_erase]
          split_ifs with hk
          · rw [hk, stored]
          · rfl
        rw [same]
        refine hb.congr fun z hz => OrderedSet.mem_erase.trans (and_iff_left_of_imp fun hmem e => ?_)
        obtain ⟨-, zid, znumber⟩ := Event.key_eq_iff.mp e
        obtain ⟨_, stored', -⟩ := hb.end_stored hmem (zid.trans hid)
        simp [znumber, stored] at stored'
    | some pair =>
        have gone := h.first_not_mem hb hid stored
        have interval := hb.interval stored
        refine (hb.erasePair stored).congr fun z hz => ?_
        rw [h.stored y List.mem_cons_self hid pair stored]
        simp only [OrderedSet.mem_erase]
        refine and_congr_left' (iff_self_and.mpr fun hmem e => gone ?_)
        obtain ⟨-, zid, znumber⟩ := Event.key_eq_iff.mp e
        exact hb.eq_first stored hmem (znumber.trans interval.first)
          (zid.trans interval.first_eventID) ▸ hmem
  · rw [Battery.applyEvent_eventMap_of_ne b hid]
    exact hb.erase_of_ne_end hid

theorem Applying.step {b : Battery} {y : Event} {rest : List Event}
    (h : Applying b (y :: rest)) : Applying (b.applyEvent y) rest where
  sorted := h.sorted.of_cons
  stored x hx hid pair stored := by
    refine h.stored x (List.mem_cons_of_mem y hx) hid pair ?_
    by_cases hy : y.eventID = .setCurrentEnd
    · rw [Battery.applyEvent_eventMap_end b hy, OrderedMap.find?_erase] at stored
      split_ifs at stored
      exact stored
    · rwa [Battery.applyEvent_eventMap_of_ne b hy] at stored
  complete z hz hid x hx hlt := by
    rw [Battery.applyEvent_eventSet, OrderedSet.mem_erase] at hz
    rcases List.mem_cons.mp (h.complete z hz.1 hid x (List.mem_cons_of_mem y hx) hlt) with e | hin
    · exact absurd (e ▸ rfl) hz.2
    · exact hin

theorem foldl_applyEvent_consistent {b : Battery} {eventVector : List Event}
    (h : Applying b eventVector) (hb : b.Consistent) :
    (eventVector.foldl Battery.applyEvent b).Consistent := by
  induction eventVector generalizing b with
  | nil => exact hb
  | cons y rest ih => exact ih h.step (h.consistent_step hb)

def CancelsAt (iter : Option Event) (k : ℕ) : Prop :=
  ∃ x, iter = some x ∧ x.eventID = .cancelSetCurrentEvent ∧ x.sequenceNumber = k

theorem mem_cancel {b c : Battery} {iter : Option Event} (h : b.cancel iter = some c)
    (hb : b.Consistent) {z : Event} :
    (z.eventID = .setCurrentBegin ∨ z.eventID = .setCurrentEnd →
      (z ∈ c.eventSet ↔ z ∈ b.eventSet ∧ ¬ CancelsAt iter z.sequenceNumber)) ∧
    (z.eventID = .cancelSetCurrentEvent → (z ∈ c.eventSet ↔ z ∈ b.eventSet ∧
      ∀ x, iter = some x → z.key ≠ x.key)) := by
  rcases Battery.cancel_eq_some h with ⟨rfl, none⟩ | ⟨x, pair, rfl, xid, stored, rfl⟩
  · refine ⟨fun _ => (and_iff_left ?_).symm, fun hid => (and_iff_left ?_).symm⟩
    · rintro ⟨x, hx, xid, -⟩
      exact none x hx xid
    · intro x hx same
      exact none x hx ((Event.key_eq_iff.mp same).2.1.symm.trans hid)
  have interval := hb.interval stored
  simp only [OrderedSet.mem_erase, and_assoc]
  constructor
  · intro hid
    refine and_congr_right fun hz => ⟨?_, fun other => ⟨?_, ?_, ?_⟩⟩
    · rintro ⟨hfirst, hsecond, -⟩ ⟨y, hy, -, number⟩
      obtain rfl : x = y := Option.some.inj hy
      rcases hid with hid | hid
      · exact hfirst (congrArg _ (hb.eq_first stored hz number.symm hid))
      · exact hsecond (congrArg _ (hb.eq_second stored hz number.symm hid))
    · intro same
      exact other ⟨x, rfl, xid, interval.first.symm.trans (Event.key_eq_iff.mp same).2.2.symm⟩
    · intro same
      exact other ⟨x, rfl, xid, interval.second.symm.trans (Event.key_eq_iff.mp same).2.2.symm⟩
    · intro same
      have := (Event.key_eq_iff.mp same).2.1
      rw [xid] at this
      simp [this] at hid
  · intro hid
    refine and_congr_right fun hz => ⟨?_, fun other => ⟨?_, ?_, other x rfl⟩⟩
    · rintro ⟨-, -, differ⟩ y hy
      exact Option.some.inj hy ▸ differ
    · intro same
      have := (Event.key_eq_iff.mp same).2.1
      simp [hid, interval.first_eventID] at this
    · intro same
      have := (Event.key_eq_iff.mp same).2.1
      simp [hid, interval.second_eventID] at this

theorem cancel_find? {b c : Battery} {iter : Option Event} (h : b.cancel iter = some c) {k : ℕ}
    {pair : EventPair} :
    c.eventMap.find? k = some pair ↔ b.eventMap.find? k = some pair ∧ ¬ CancelsAt iter k := by
  rcases Battery.cancel_eq_some h with ⟨rfl, none⟩ | ⟨x, pair', rfl, xid, -, rfl⟩
  · refine (and_iff_left ?_).symm
    rintro ⟨x, hx, xid, -⟩
    exact none x hx xid
  · have here : CancelsAt (some x) k ↔ k = x.sequenceNumber :=
      ⟨fun ⟨y, hy, _, number⟩ => number ▸ Option.some.inj hy ▸ rfl,
        fun e => ⟨x, rfl, xid, e.symm⟩⟩
    rw [OrderedMap.find?_erase, here]
    split_ifs with hk <;> simp [hk]

theorem Battery.Consistent.eventMap_of_empty {b : Battery} (hb : b.Consistent)
    (empty : b.eventSet.elems = []) (k : ℕ) : b.eventMap.find? k = none := by
  cases stored : b.eventMap.find? k with
  | none => rfl
  | some pair =>
      have := hb.second_mem stored
      simp [OrderedSet.mem_def, empty] at this

/-- What one batch does to the queue and the map of a consistent battery: `eventVector` is
what it applied, `iter` where its scan stopped. -/
structure Processed (now : ℤ) (b b' : Battery) (eventVector : List Event) (iter : Option Event) :
    Prop where
  stopped : Stopped now iter
  due : ∀ z ∈ eventVector, z.eventTime ≤ now
  no_cancel : ∀ z ∈ eventVector, z.eventID ≠ .cancelSetCurrentEvent
  before : ∀ z ∈ eventVector, Before z iter
  member : ∀ z ∈ eventVector, z.eventID ≠ .refresh → z ∈ b.eventSet
  iter_mem : ∀ x, iter = some x → x.eventID ≠ .refresh → x ∈ b.eventSet
  complete : ∀ z ∈ b.eventSet, z.eventID ≠ .refresh → Before z iter → z ∈ eventVector
  mem_setCurrent : ∀ z, z.eventID = .setCurrentBegin ∨ z.eventID = .setCurrentEnd →
    (z ∈ b'.eventSet ↔
      z ∈ b.eventSet ∧ ¬ CancelsAt iter z.sequenceNumber ∧ z ∉ eventVector)
  mem_cancel : ∀ z, z.eventID = .cancelSetCurrentEvent →
    (z ∈ b'.eventSet ↔ z ∈ b.eventSet ∧ ∀ x, iter = some x → z.key ≠ x.key)
  find? : ∀ k pair, b'.eventMap.find? k = some pair ↔
    b.eventMap.find? k = some pair ∧ ¬ CancelsAt iter k ∧
      ∀ y ∈ eventVector, y.eventID = .setCurrentEnd → y.sequenceNumber ≠ k
  batteryName : b'.batteryName = b.batteryName
  refreshMode : b'.refreshMode = b.refreshMode
  maxStaleness : b'.maxStaleness = b.maxStaleness

theorem Processed.later {now : ℤ} {b b' : Battery} {eventVector : List Event}
    {iter : Option Event} (h : Processed now b b' eventVector iter) {z : Event}
    (hz : z ∈ b'.eventSet) (hid : z.eventID ≠ .refresh) :
    z ∈ b.eventSet ∧ ∃ x, iter = some x ∧ x.key ≤ z.key := by
  have kept : z ∈ b.eventSet ∧ z ∉ eventVector := by
    cases hz' : z.eventID with
    | refresh => exact absurd hz' hid
    | setCurrentBegin =>
        have := (h.mem_setCurrent z (.inl hz')).mp hz
        exact ⟨this.1, this.2.2⟩
    | setCurrentEnd =>
        have := (h.mem_setCurrent z (.inr hz')).mp hz
        exact ⟨this.1, this.2.2⟩
    | cancelSetCurrentEvent =>
        exact ⟨((h.mem_cancel z hz').mp hz).1, fun hin => h.no_cancel z hin hz'⟩
  refine ⟨kept.1, ?_⟩
  by_contra! none
  exact kept.2 (h.complete z kept.1 hid fun x hx => none x hx)

theorem Processed.lt_cancel (batch : Processed now b b' eventVector iter) {x y : Event}
    (hx : iter = some x) (hid : x.eventID = .cancelSetCurrentEvent) (hy : y ∈ eventVector) :
    y.eventTime < x.eventTime := by
  have hlt := batch.before y hy x hx
  have kind := batch.no_cancel y hy
  rw [Event.key_lt_iff, hid] at hlt
  rcases hlt with hlt | ⟨-, hlt | ⟨same, -⟩⟩
  · exact hlt
  · cases hy' : y.eventID <;> simp [hy', EventID.toInt] at hlt
  · exact absurd same kind

theorem foldl_applyEvent_fields (eventVector : List Event) (b : Battery) :
    (eventVector.foldl Battery.applyEvent b).batteryName = b.batteryName ∧
    (eventVector.foldl Battery.applyEvent b).refreshMode = b.refreshMode ∧
    (eventVector.foldl Battery.applyEvent b).maxStaleness = b.maxStaleness := by
  induction eventVector generalizing b with
  | nil => exact ⟨rfl, rfl, rfl⟩
  | cons x rest ih =>
      obtain ⟨hname, hmode, hstale⟩ := ih (b.applyEvent x)
      have same : (b.applyEvent x).batteryName = b.batteryName ∧
          (b.applyEvent x).refreshMode = b.refreshMode ∧
          (b.applyEvent x).maxStaleness = b.maxStaleness := by
        unfold Battery.applyEvent
        split <;> exact ⟨rfl, rfl, rfl⟩
      exact ⟨hname.trans same.1, hmode.trans same.2.1, hstale.trans same.2.2⟩

/-- The events applied leave the queue, and an END takes its entry along. The queue may be
empty after the cancel; then the source applies nothing, and there is nothing to apply to. -/
theorem applyEvents_spec {driver : Driver} {c b' : Battery} {eventVector : List Event}
    {commanded : Option ℤ} (hc : c.Consistent)
    (h : (b', commanded) = c.applyEvents driver eventVector) :
    (∀ z, z ∈ b'.eventSet ↔ z ∈ c.eventSet ∧ ∀ y ∈ eventVector, z.key ≠ y.key) ∧
    (∀ k pair, b'.eventMap.find? k = some pair ↔ c.eventMap.find? k = some pair ∧
      ∀ y ∈ eventVector, y.eventID = .setCurrentEnd → y.sequenceNumber ≠ k) ∧
    b'.batteryName = c.batteryName ∧ b'.refreshMode = c.refreshMode ∧
    b'.maxStaleness = c.maxStaleness := by
  by_cases empty : c.eventSet.elems = []
  · rw [Battery.applyEvents_of_empty driver empty] at h
    obtain rfl : b' = c := congrArg Prod.fst h
    refine ⟨fun z => ?_, fun k pair => ?_, rfl, rfl, rfl⟩
    · simp [OrderedSet.mem_def, empty]
    · simp [hc.eventMap_of_empty empty]
  · obtain ⟨status, _, happly, -⟩ := Battery.applyEvents_of_nonempty driver empty eventVector
    rw [happly] at h
    obtain rfl := (Prod.ext_iff.mp h).1
    refine ⟨Battery.mem_foldl_applyEvent eventVector c, fun k pair => ?_,
      foldl_applyEvent_fields eventVector c⟩
    rw [Battery.foldl_applyEvent_find?]
    split_ifs with ended
    · obtain ⟨y, hy, yid, number⟩ := ended
      simp only [false_iff, not_and, not_forall]
      exact fun _ => ⟨y, hy, yid, fun ne => ne number⟩
    · push Not at ended
      exact (and_iff_left ended).symm

theorem exists_setCurrent_of_foldl_ne {b : Battery} {eventVector : List Event}
    (h : (eventVector.foldl Battery.applyEvent b).currentMA ≠ b.currentMA) :
    ∃ y ∈ eventVector, y.eventID = .setCurrentBegin ∨ y.eventID = .setCurrentEnd := by
  induction eventVector generalizing b with
  | nil => exact absurd rfl h
  | cons x rest ih =>
      by_cases same : ((b.applyEvent x).currentMA) = b.currentMA
      · obtain ⟨y, hy, hid⟩ := ih (b := b.applyEvent x) (by rwa [same])
        exact ⟨y, List.mem_cons_of_mem x hy, hid⟩
      · refine ⟨x, List.mem_cons_self, ?_⟩
        rw [Battery.applyEvent_currentMA] at same
        cases hid : x.eventID <;> simp_all [Battery.delta]

theorem applyEvents_commanded {driver : Driver} {c b' : Battery} {eventVector : List Event}
    {commanded : Option ℤ} (h : (b', commanded) = c.applyEvents driver eventVector) :
    b'.currentMA = commanded.getD c.currentMA ∧
    (commanded ≠ none →
      ∃ y ∈ eventVector, y.eventID = .setCurrentBegin ∨ y.eventID = .setCurrentEnd) := by
  have hb' := congrArg Prod.fst h
  have hcommanded := congrArg Prod.snd h
  simp only [Battery.applyEvents] at hb' hcommanded
  split_ifs at hb' hcommanded with empty changed
  · exact ⟨by rw [hb', hcommanded, Option.getD_none], fun no => absurd hcommanded no⟩
  · exact ⟨by rw [hb', hcommanded, Option.getD_some], fun _ =>
      exists_setCurrent_of_foldl_ne changed⟩
  · exact ⟨by rw [hb', hcommanded, Option.getD_none]; exact not_not.mp changed,
      fun no => absurd hcommanded no⟩

theorem Battery.Consistent.processed {driver : Driver} {fuel sequenceNumber sequenceNumber' : ℕ}
    {now : ℤ} {b b' : Battery} {commanded : Option ℤ} (hb : b.Consistent)
    (h : b.runEventThread driver fuel sequenceNumber now = .done b' sequenceNumber' commanded) :
    ∃ eventVector iter, Processed now b b' eventVector iter ∧
      b'.currentMA = commanded.getD b.currentMA ∧
      (commanded ≠ none →
        ∃ y ∈ eventVector, y.eventID = .setCurrentBegin ∨ y.eventID = .setCurrentEnd) := by
  obtain ⟨r, c, eventVector, iter, refreshed, walked, stopped, hcancel, result⟩ :=
    Battery.runEventThread_done h
  have hr := refreshed.consistent hb
  have hc := cancel_consistent hcancel hr
  obtain ⟨mem, find, name, mode, staleness⟩ := applyEvents_spec hc result
  have fields : c.batteryName = r.batteryName ∧ c.refreshMode = r.refreshMode ∧
      c.maxStaleness = r.maxStaleness ∧ c.currentMA = r.currentMA := by
    rcases Battery.cancel_eq_some hcancel with ⟨rfl, -⟩ | ⟨x, pair, -, -, -, rfl⟩ <;>
      exact ⟨rfl, rfl, rfl, rfl⟩
  obtain ⟨current, changing⟩ := applyEvents_commanded result
  rw [fields.2.2.2, refreshed.currentMA] at current
  refine ⟨eventVector, iter, ⟨stopped, walked.due, walked.no_cancel, walked.before,
    fun z hz hid => (refreshed.events z hid).mp (walked.member z hz),
    fun x hx hid => (refreshed.events x hid).mp (walked.iter_mem x hx),
    fun z hz hid hbefore => walked.complete z ((refreshed.events z hid).mpr hz) hid hbefore,
    fun z hid => ?_, fun z hid => ?_, fun k pair => ?_, ?_, ?_, ?_⟩, current, changing⟩
  · rw [mem, (mem_cancel hcancel hr).1 hid, refreshed.events z (by rcases hid with h | h <;> simp [h]),
      and_assoc]
    refine and_congr_right fun hz => and_congr_right fun _ => ⟨fun other hin => other z hin rfl, ?_⟩
    intro hout y hy same
    have hz' := (refreshed.events z (by rcases hid with h | h <;> simp [h])).mpr hz
    exact hout (OrderedSet.eq_of_key_eq hz' (walked.member y hy) same ▸ hy)
  · rw [mem, (mem_cancel hcancel hr).2 hid, refreshed.events z (by simp [hid]), and_assoc]
    refine and_congr_right fun hz => and_iff_left fun y hy same => ?_
    exact walked.no_cancel y hy ((Event.key_eq_iff.mp same).2.1.symm.trans hid)
  · rw [find, cancel_find? hcancel, refreshed.eventMap, and_assoc]
  · rw [name, fields.1, refreshed.batteryName]
  · rw [mode, fields.2.1, refreshed.refreshMode]
  · rw [staleness, fields.2.2.1, refreshed.maxStaleness]

theorem Battery.runEventThread_outOfRange {driver : Driver} {fuel sequenceNumber : ℕ} {now : ℤ}
    {b : Battery} (h : b.runEventThread driver fuel sequenceNumber now = .outOfRange) :
    ∃ z ∈ b.eventSet, z.eventID = .cancelSetCurrentEvent ∧
      b.eventMap.find? z.sequenceNumber = none := by
  rw [runEventThread] at h
  cases hscan : scan driver now fuel b sequenceNumber [] b.eventSet.begin with
  | none => simp [hscan] at h
  | some s =>
      obtain ⟨refreshed, walked, -⟩ := scan_walked hscan (walked_begin now b)
      cases hcancel : s.battery.cancel s.iter with
      | some c => simp [hscan, hcancel] at h
      | none =>
          cases hiter : s.iter with
          | none => simp [hiter, cancel] at hcancel
          | some x =>
              simp only [hiter, cancel] at hcancel
              split_ifs at hcancel with hid
              rw [Option.map_eq_none_iff, refreshed.eventMap] at hcancel
              exact ⟨x, (refreshed.events x (by simp [hid])).mp (walked.iter_mem x hiter), hid,
                hcancel⟩

theorem Battery.Consistent.runEventThread {driver : Driver} {fuel sequenceNumber sequenceNumber' : ℕ}
    {now : ℤ} {b b' : Battery} {commanded : Option ℤ} (hb : b.Consistent)
    (h : b.runEventThread driver fuel sequenceNumber now = .done b' sequenceNumber' commanded) :
    b'.Consistent := by
  obtain ⟨r, c, eventVector, iter, refreshed, walked, -, hcancel, result⟩ :=
    Battery.runEventThread_done h
  have hr := refreshed.consistent hb
  have hc := cancel_consistent hcancel hr
  by_cases hempty : c.eventSet.elems = []
  · rw [Battery.applyEvents_of_empty driver hempty] at result
    obtain rfl := (Prod.ext_iff.mp result).1
    exact hc
  · obtain ⟨status, _, happly, -⟩ := Battery.applyEvents_of_nonempty driver hempty eventVector
    rw [happly] at result
    obtain rfl := (Prod.ext_iff.mp result).1
    exact foldl_applyEvent_consistent (walked.applying hr hcancel) hc

end BatteryOS.V3
