import BatteryOS.V3.Merge

/-! The event set and the event map tell the same story: an entry of the map is a
proper interval whose END is queued, and every queued BEGIN or END is the stored one.
A merge keeps this whatever the requests are, as long as each ends after it starts. -/

namespace BatteryOS.V3

/-- The BEGIN and END of one request: one number, name and current, in order. -/
structure EventPair.Interval (k : ℕ) (pair : EventPair) : Prop extends pair.Numbered k where
  first_eventID : pair.first.eventID = .setCurrentBegin
  second_eventID : pair.second.eventID = .setCurrentEnd
  same_name : pair.second.batteryName = pair.first.batteryName
  same_current : pair.second.currentMA = pair.first.currentMA
  ordered : pair.first.eventTime < pair.second.eventTime

structure Consistent (s : EventSet) (m : EventMap) : Prop where
  interval : ∀ {k pair}, m.find? k = some pair → pair.Interval k
  second_mem : ∀ {k pair}, m.find? k = some pair → pair.second ∈ s
  begin_stored : ∀ {z}, z ∈ s → z.eventID = .setCurrentBegin →
    ∃ pair, m.find? z.sequenceNumber = some pair ∧ pair.first = z
  end_stored : ∀ {z}, z ∈ s → z.eventID = .setCurrentEnd →
    ∃ pair, m.find? z.sequenceNumber = some pair ∧ pair.second = z

def Battery.Consistent (b : Battery) : Prop := V3.Consistent b.eventSet b.eventMap

theorem Battery.Consistent.numbered {b : Battery} (h : b.Consistent) : b.Numbered :=
  fun _ _ stored => (h.interval stored).toNumbered

section Overlap

variable {batteryName : String} {startTime endTime : ℤ} {pair : EventPair}

theorem overlap_eq_covered : overlap batteryName startTime endTime pair = .covered ↔
    batteryName = pair.first.batteryName ∧
      startTime ≤ pair.first.eventTime ∧ pair.second.eventTime ≤ endTime := by
  unfold overlap
  grind

theorem overlap_eq_nested : overlap batteryName startTime endTime pair = .nested ↔
    batteryName = pair.first.batteryName ∧
      pair.first.eventTime ≤ startTime ∧ endTime < pair.second.eventTime := by
  unfold overlap
  grind

theorem overlap_eq_endMoved : overlap batteryName startTime endTime pair = .endMoved ↔
    batteryName = pair.first.batteryName ∧
      pair.first.eventTime < startTime ∧ pair.second.eventTime ≤ endTime := by
  unfold overlap
  grind

theorem overlap_eq_beginMoved : overlap batteryName startTime endTime pair = .beginMoved ↔
    batteryName = pair.first.batteryName ∧
      startTime < pair.first.eventTime ∧ endTime < pair.second.eventTime := by
  unfold overlap
  grind

theorem overlap_eq_otherName : overlap batteryName startTime endTime pair = .otherName ↔
    batteryName ≠ pair.first.batteryName := by
  unfold overlap
  grind

theorem overlap_ne_untouched : overlap batteryName startTime endTime pair ≠ .untouched := by
  unfold overlap
  grind

variable (batteryName startTime endTime)

theorem mergedPair_interval {k : ℕ} (h : pair.Interval k) :
    (mergedPair batteryName startTime endTime pair).Interval k := by
  cases ho : overlap batteryName startTime endTime pair with
  | endMoved =>
      obtain ⟨name, hs, -⟩ := overlap_eq_endMoved.mp ho
      simp only [mergedPair, ho]
      exact ⟨⟨h.first, h.second⟩, h.first_eventID, rfl, name, h.same_current, hs⟩
  | beginMoved =>
      obtain ⟨name, -, he⟩ := overlap_eq_beginMoved.mp ho
      simp only [mergedPair, ho]
      exact ⟨⟨h.first, h.second⟩, rfl, h.second_eventID, h.same_name.trans name.symm,
        h.same_current, he⟩
  | otherName | covered | nested | untouched => simpa only [mergedPair, ho] using h

theorem mergedPair_currentMA :
    (mergedPair batteryName startTime endTime pair).first.currentMA = pair.first.currentMA := by
  unfold mergedPair
  split <;> rfl

theorem mergedPair_batteryName :
    (mergedPair batteryName startTime endTime pair).first.batteryName = pair.first.batteryName := by
  cases ho : overlap batteryName startTime endTime pair with
  | beginMoved => simpa only [mergedPair, ho, movedBegin] using (overlap_eq_beginMoved.mp ho).1
  | otherName | covered | nested | endMoved | untouched => simp only [mergedPair, ho]

end Overlap

section MergedSet

variable {s : EventSet} {m : EventMap} {k : ℕ} {pair : EventPair} {z : Event}
  {batteryName : String} {startTime endTime : ℤ}

theorem Consistent.eq_first (h : Consistent s m) (stored : m.find? k = some pair) (hz : z ∈ s)
    (number : z.sequenceNumber = k) (hid : z.eventID = .setCurrentBegin) : z = pair.first := by
  obtain ⟨pair', stored', rfl⟩ := h.begin_stored hz hid
  rw [number, stored] at stored'
  cases stored'
  rfl

theorem Consistent.eq_second (h : Consistent s m) (stored : m.find? k = some pair) (hz : z ∈ s)
    (number : z.sequenceNumber = k) (hid : z.eventID = .setCurrentEnd) : z = pair.second := by
  obtain ⟨pair', stored', rfl⟩ := h.end_stored hz hid
  rw [number, stored] at stored'
  cases stored'
  rfl

theorem mem_mergedSet_end (h : Consistent s m) (stored : m.find? k = some pair)
    (number : z.sequenceNumber = k) (hid : z.eventID = .setCurrentEnd) :
    z ∈ mergedSet batteryName startTime endTime pair s ↔
      z = (mergedPair batteryName startTime endTime pair).second := by
  have interval := h.interval stored
  have before : z ∈ s ↔ z = pair.second :=
    ⟨fun hz => h.eq_second stored hz number hid, fun hz => hz ▸ h.second_mem stored⟩
  cases ho : overlap batteryName startTime endTime pair with
  | otherName | nested | untouched => simpa only [mergedSet, mergedPair, ho] using before
  | covered =>
      simp only [mergedSet, mergedPair, ho, OrderedSet.mem_insert, before]
      exact or_iff_left fun hz => by simp [hz.1, cancelEvent] at hid
  | beginMoved =>
      simp only [mergedSet, mergedPair, ho, OrderedSet.mem_insert, OrderedSet.mem_erase, before]
      have differ : z.key ≠ pair.first.key := fun e => by
        simp [(Event.key_eq_iff.mp e).2.1, interval.first_eventID] at hid
      exact ⟨fun hz => hz.elim (·.1) fun hz => by simp [hz.1, movedBegin] at hid,
        fun hz => .inl ⟨hz, differ⟩⟩
  | endMoved =>
      simp only [mergedSet, mergedPair, ho, OrderedSet.mem_insert, OrderedSet.mem_erase, before]
      refine ⟨fun hz => hz.elim (fun hz => absurd (hz.1 ▸ rfl) hz.2) (·.1), fun hz => .inr ⟨hz, ?_⟩⟩
      rintro y ⟨hy, differ⟩ same
      obtain ⟨-, yid, ynumber⟩ := Event.key_eq_iff.mp same
      exact differ (h.eq_second stored hy (ynumber.trans interval.second) yid ▸ rfl)

theorem mem_mergedSet_begin (h : Consistent s m) (stored : m.find? k = some pair)
    (number : z.sequenceNumber = k) (hid : z.eventID = .setCurrentBegin) :
    z ∈ mergedSet batteryName startTime endTime pair s ↔
      z = (mergedPair batteryName startTime endTime pair).first ∧
        (pair.first ∈ s ∨ overlap batteryName startTime endTime pair = .beginMoved) := by
  have interval := h.interval stored
  have before : z ∈ s ↔ z = pair.first ∧ pair.first ∈ s := by
    refine ⟨fun hz => ?_, fun hz => hz.1 ▸ hz.2⟩
    have e := h.eq_first stored hz number hid
    exact ⟨e, e ▸ hz⟩
  cases ho : overlap batteryName startTime endTime pair with
  | otherName | nested | untouched => simp [mergedSet, mergedPair, ho, before]
  | covered =>
      simp only [mergedSet, mergedPair, ho, OrderedSet.mem_insert, before]
      rw [or_iff_left fun hz => by simp [hz.1, cancelEvent] at hid]
      simp
  | endMoved =>
      simp only [mergedSet, mergedPair, ho, OrderedSet.mem_insert, OrderedSet.mem_erase, before]
      have differ : z.key ≠ pair.second.key := fun e => by
        simp [(Event.key_eq_iff.mp e).2.1, interval.second_eventID] at hid
      rw [or_iff_left fun hz => by simp [hz.1, movedEnd] at hid]
      simp [differ]
  | beginMoved =>
      simp only [mergedSet, mergedPair, ho, OrderedSet.mem_insert, OrderedSet.mem_erase, before,
        or_true, and_true]
      refine ⟨fun hz => hz.elim (fun hz => absurd (hz.1.1 ▸ rfl) hz.2) (·.1),
        fun hz => .inr ⟨hz, ?_⟩⟩
      rintro y ⟨hy, differ⟩ same
      obtain ⟨-, yid, ynumber⟩ := Event.key_eq_iff.mp same
      exact differ (h.eq_first stored hy (ynumber.trans interval.first) yid ▸ rfl)

theorem mem_mergedSet_cancel (h : Consistent s m) (stored : m.find? k = some pair)
    (hid : z.eventID = .cancelSetCurrentEvent) :
    z ∈ mergedSet batteryName startTime endTime pair s ↔
      z ∈ s ∨ overlap batteryName startTime endTime pair = .covered ∧
        z = cancelEvent batteryName startTime pair ∧ ∀ y ∈ s, y.key ≠ z.key := by
  have interval := h.interval stored
  cases ho : overlap batteryName startTime endTime pair with
  | otherName | nested | untouched => simp [mergedSet, ho]
  | covered =>
      simp only [mergedSet, ho, OrderedSet.mem_insert, true_and]
      exact or_congr_right (and_congr_right fun e => e ▸ Iff.rfl)
  | beginMoved =>
      have differ : z.key ≠ pair.first.key := fun e => by
        simp [(Event.key_eq_iff.mp e).2.1, interval.first_eventID] at hid
      simp only [mergedSet, ho, OrderedSet.mem_insert, OrderedSet.mem_erase]
      rw [or_iff_left fun hz => by simp [hz.1, movedBegin] at hid]
      simp [differ]
  | endMoved =>
      have differ : z.key ≠ pair.second.key := fun e => by
        simp [(Event.key_eq_iff.mp e).2.1, interval.second_eventID] at hid
      simp only [mergedSet, ho, OrderedSet.mem_insert, OrderedSet.mem_erase]
      rw [or_iff_left fun hz => by simp [hz.1, movedEnd] at hid]
      simp [differ]

end MergedSet

section Insert

variable {s : EventSet} {m : EventMap} {k : ℕ} {pair : EventPair} {z : Event}

theorem Consistent.free_key (h : Consistent s m) (fresh : m.find? k = none) {x : Event}
    (number : x.sequenceNumber = k)
    (hid : x.eventID = .setCurrentBegin ∨ x.eventID = .setCurrentEnd) :
    ∀ y ∈ s, y.key ≠ x.key := by
  intro y hy same
  obtain ⟨-, yid, ynumber⟩ := Event.key_eq_iff.mp same
  have absent : m.find? y.sequenceNumber = none := by rw [ynumber, number, fresh]
  rcases hid with hid | hid
  · obtain ⟨_, stored, -⟩ := h.begin_stored hy (yid.trans hid)
    simp [absent] at stored
  · obtain ⟨_, stored, -⟩ := h.end_stored hy (yid.trans hid)
    simp [absent] at stored

theorem Consistent.mem_insertPair (h : Consistent s m) (fresh : m.find? k = none)
    (interval : pair.Interval k) :
    z ∈ (s.insert pair.first).insert pair.second ↔ z ∈ s ∨ z = pair.first ∨ z = pair.second := by
  have free_first := h.free_key fresh interval.first (.inl interval.first_eventID)
  have free_second := h.free_key fresh interval.second (.inr interval.second_eventID)
  have apart : pair.first.key ≠ pair.second.key := fun e => by
    simpa [interval.first_eventID, interval.second_eventID] using (Event.key_eq_iff.mp e).2.1
  have inserted : ∀ y, y ∈ s.insert pair.first ↔ y ∈ s ∨ y = pair.first := fun y => by
    rw [OrderedSet.mem_insert]
    exact or_congr_right (and_iff_left free_first)
  rw [OrderedSet.mem_insert, inserted, or_assoc]
  refine or_congr_right (or_congr_right (and_iff_left fun y hy => ?_))
  rcases (inserted y).mp hy with hy | rfl
  · exact free_second y hy
  · exact apart

theorem Consistent.insertPair (h : Consistent s m) (fresh : m.find? k = none)
    (interval : pair.Interval k) :
    Consistent ((s.insert pair.first).insert pair.second) (m.insert k pair) := by
  have find : ∀ k', (m.insert k pair).find? k' = if k' = k then some pair else m.find? k' := by
    intro k'
    rw [OrderedMap.find?_insert, fresh]
    rfl
  have kept : ∀ {k' pair'}, m.find? k' = some pair' → (m.insert k pair).find? k' = some pair' := by
    intro k' pair' stored
    rw [find, if_neg]
    · exact stored
    · rintro rfl
      simp [fresh] at stored
  constructor
  · intro k' pair' stored
    rw [find] at stored
    split_ifs at stored with hk
    · cases stored
      exact hk ▸ interval
    · exact h.interval stored
  · intro k' pair' stored
    rw [find] at stored
    rw [h.mem_insertPair fresh interval]
    split_ifs at stored with hk
    · cases stored
      exact .inr (.inr rfl)
    · exact .inl (h.second_mem stored)
  · intro z hz hid
    rw [h.mem_insertPair fresh interval] at hz
    rcases hz with hz | rfl | rfl
    · obtain ⟨pair', stored, hfirst⟩ := h.begin_stored hz hid
      exact ⟨pair', kept stored, hfirst⟩
    · exact ⟨pair, by rw [find, if_pos interval.first], rfl⟩
    · simp [interval.second_eventID] at hid
  · intro z hz hid
    rw [h.mem_insertPair fresh interval] at hz
    rcases hz with hz | rfl | rfl
    · obtain ⟨pair', stored, hsecond⟩ := h.end_stored hz hid
      exact ⟨pair', kept stored, hsecond⟩
    · simp [interval.first_eventID] at hid
    · exact ⟨pair, by rw [find, if_pos interval.second], rfl⟩

theorem Consistent.erasePair (h : Consistent s m) (stored : m.find? k = some pair) :
    Consistent ((s.erase pair.first).erase pair.second) (m.erase k) := by
  have interval := h.interval stored
  have other : ∀ {z}, z ∈ s → z.key ≠ pair.first.key → z.key ≠ pair.second.key →
      z.eventID = .setCurrentBegin ∨ z.eventID = .setCurrentEnd → z.sequenceNumber ≠ k := by
    rintro z hz hfirst hsecond (hid | hid) number
    · exact hfirst (h.eq_first stored hz number hid ▸ rfl)
    · exact hsecond (h.eq_second stored hz number hid ▸ rfl)
  have numberOf : ∀ {x y : Event}, x.key = y.key → x.sequenceNumber = y.sequenceNumber :=
    fun e => (Event.key_eq_iff.mp e).2.2
  constructor
  · intro k' pair' stored'
    rw [OrderedMap.find?_erase] at stored'
    split_ifs at stored'
    exact h.interval stored'
  · intro k' pair' stored'
    rw [OrderedMap.find?_erase] at stored'
    split_ifs at stored' with hk
    have number := (h.interval stored').second
    rw [OrderedSet.mem_erase, OrderedSet.mem_erase]
    exact ⟨⟨h.second_mem stored', fun e => hk (number ▸ interval.first ▸ numberOf e)⟩,
      fun e => hk (number ▸ interval.second ▸ numberOf e)⟩
  · intro z hz hid
    rw [OrderedSet.mem_erase, OrderedSet.mem_erase] at hz
    obtain ⟨pair', stored', hfirst⟩ := h.begin_stored hz.1.1 hid
    exact ⟨pair', by
      rw [OrderedMap.find?_erase, if_neg (other hz.1.1 hz.1.2 hz.2 (.inl hid)), stored'], hfirst⟩
  · intro z hz hid
    rw [OrderedSet.mem_erase, OrderedSet.mem_erase] at hz
    obtain ⟨pair', stored', hsecond⟩ := h.end_stored hz.1.1 hid
    exact ⟨pair', by
      rw [OrderedMap.find?_erase, if_neg (other hz.1.1 hz.1.2 hz.2 (.inr hid)), stored'], hsecond⟩

end Insert

theorem requestPair_interval {startTime endTime : ℤ} (h : startTime < endTime)
    (batteryName : String) (targetCurrentMA : ℤ) (k : ℕ) :
    (requestPair batteryName targetCurrentMA startTime endTime k).Interval k :=
  ⟨⟨rfl, rfl⟩, rfl, rfl, rfl, rfl, h⟩

namespace Battery.Consistent

variable {b : Battery} {k : ℕ} {z : Event} {batteryName : String} {currentMA : ℚ}
  {startTime endTime : ℤ}

section Fresh

variable (h : b.Consistent) (fresh : b.eventMap.find? k = none)
include h fresh

theorem checkMerge_find? (k' : ℕ) :
    (b.checkMerge batteryName currentMA startTime endTime k).eventMap.find? k' =
      (b.eventMap.find? k').map (mergedPair batteryName startTime endTime) := by
  rw [checkMerge_eventMap _ _ _ _ h.numbered fresh, OrderedMap.find?_mapValues]

theorem mem_checkMerge_end (hid : z.eventID = .setCurrentEnd) :
    z ∈ (b.checkMerge batteryName currentMA startTime endTime k).eventSet ↔
      ∃ pair, b.eventMap.find? z.sequenceNumber = some pair ∧
        z = (mergedPair batteryName startTime endTime pair).second := by
  cases stored : b.eventMap.find? z.sequenceNumber with
  | none =>
      rw [checkMerge_eventSet_absent _ _ _ _ h.numbered fresh stored z rfl]
      refine iff_of_false (fun hz => ?_) (by simp)
      obtain ⟨_, stored', -⟩ := h.end_stored hz hid
      simp [stored] at stored'
  | some pair =>
      rw [checkMerge_eventSet_stored _ _ _ _ h.numbered fresh stored z rfl,
        mem_mergedSet_end h stored rfl hid]
      simp

theorem mem_checkMerge_begin (hid : z.eventID = .setCurrentBegin) :
    z ∈ (b.checkMerge batteryName currentMA startTime endTime k).eventSet ↔
      ∃ pair, b.eventMap.find? z.sequenceNumber = some pair ∧
        z = (mergedPair batteryName startTime endTime pair).first ∧
        (pair.first ∈ b.eventSet ∨
          overlap batteryName startTime endTime pair = .beginMoved) := by
  cases stored : b.eventMap.find? z.sequenceNumber with
  | none =>
      rw [checkMerge_eventSet_absent _ _ _ _ h.numbered fresh stored z rfl]
      refine iff_of_false (fun hz => ?_) (by simp)
      obtain ⟨_, stored', -⟩ := h.begin_stored hz hid
      simp [stored] at stored'
  | some pair =>
      rw [checkMerge_eventSet_stored _ _ _ _ h.numbered fresh stored z rfl,
        mem_mergedSet_begin h stored rfl hid]
      simp

theorem mem_checkMerge_cancel (hid : z.eventID = .cancelSetCurrentEvent) :
    z ∈ (b.checkMerge batteryName currentMA startTime endTime k).eventSet ↔
      z ∈ b.eventSet ∨ ∃ pair, b.eventMap.find? z.sequenceNumber = some pair ∧
        overlap batteryName startTime endTime pair = .covered ∧
        z = cancelEvent batteryName startTime pair ∧ ∀ y ∈ b.eventSet, y.key ≠ z.key := by
  cases stored : b.eventMap.find? z.sequenceNumber with
  | none =>
      rw [checkMerge_eventSet_absent _ _ _ _ h.numbered fresh stored z rfl]
      simp
  | some pair =>
      rw [checkMerge_eventSet_stored _ _ _ _ h.numbered fresh stored z rfl,
        mem_mergedSet_cancel h stored hid]
      simp

theorem checkMerge_fresh :
    let m := b.checkMerge batteryName currentMA startTime endTime k
    V3.Consistent m.eventSet m.eventMap := by
  constructor
  · intro k' pair' stored'
    rw [h.checkMerge_find? fresh] at stored'
    obtain ⟨pair, was, rfl⟩ := Option.map_eq_some_iff.mp stored'
    exact mergedPair_interval _ _ _ (h.interval was)
  · intro k' pair' stored'
    rw [h.checkMerge_find? fresh] at stored'
    obtain ⟨pair, was, rfl⟩ := Option.map_eq_some_iff.mp stored'
    have interval := mergedPair_interval batteryName startTime endTime (h.interval was)
    rw [h.mem_checkMerge_end fresh interval.second_eventID, interval.second]
    exact ⟨pair, was, rfl⟩
  · intro z hz hid
    obtain ⟨pair, stored', e, -⟩ := (h.mem_checkMerge_begin fresh hid).mp hz
    exact ⟨_, by rw [h.checkMerge_find? fresh, stored']; rfl, e.symm⟩
  · intro z hz hid
    obtain ⟨pair, stored', e⟩ := (h.mem_checkMerge_end fresh hid).mp hz
    exact ⟨_, by rw [h.checkMerge_find? fresh, stored']; rfl, e.symm⟩

end Fresh

theorem checkMerge (h : b.Consistent) :
    let m := b.checkMerge batteryName currentMA startTime endTime k
    V3.Consistent m.eventSet m.eventMap ∧ m.eventMap.find? k = none := by
  refine ⟨?_, checkMerge_free batteryName currentMA startTime endTime h.numbered⟩
  cases stored : b.eventMap.find? k with
  | some pair =>
      simp only [Battery.checkMerge, stored]
      exact V3.Consistent.erasePair h stored
  | none => exact h.checkMerge_fresh stored

theorem checkMergeAndInsertEvents (h : b.Consistent) (hlt : startTime < endTime) :
    (b.checkMergeAndInsertEvents batteryName currentMA startTime endTime k).Consistent :=
  h.checkMerge.1.insertPair h.checkMerge.2 (requestPair_interval hlt _ _ k)

end Battery.Consistent

namespace Battery

variable {b : Battery} {k : ℕ} {z : Event} {batteryName : String} {currentMA : ℚ}
  {startTime endTime : ℤ}

theorem insertedPair_interval (hlt : startTime < endTime) :
    (b.insertedPair batteryName currentMA startTime endTime k).Interval k :=
  requestPair_interval hlt _ _ k

section Insert

variable (h : b.Consistent) (hlt : startTime < endTime)
include h hlt

theorem Consistent.mem_insertEvents :
    z ∈ (b.checkMergeAndInsertEvents batteryName currentMA startTime endTime k).eventSet ↔
      z ∈ (b.checkMerge batteryName currentMA startTime endTime k).eventSet ∨
        z = (b.insertedPair batteryName currentMA startTime endTime k).first ∨
        z = (b.insertedPair batteryName currentMA startTime endTime k).second :=
  h.checkMerge.1.mem_insertPair h.checkMerge.2 (insertedPair_interval hlt)

end Insert

end Battery

end BatteryOS.V3
