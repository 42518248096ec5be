import BatteryOS.V3.Battery

/-! The merge loop, key by key. An iteration touches only the events and the map
entry of its own sequence number, so the loop as a whole rewrites every entry on its
own: `checkMerge` is characterised by what it does at one sequence number. -/

namespace BatteryOS.V3

variable {batteryName : String} {startTime endTime : ℤ}

/-- Both events of a stored pair carry the sequence number it is stored under. -/
structure EventPair.Numbered (k : ℕ) (pair : EventPair) : Prop where
  first : pair.first.sequenceNumber = k
  second : pair.second.sequenceNumber = k

def Battery.Numbered (b : Battery) : Prop :=
  ∀ k pair, b.eventMap.find? k = some pair → pair.Numbered k

def mergedPair (batteryName : String) (startTime endTime : ℤ) (pair : EventPair) : EventPair :=
  match overlap batteryName startTime endTime pair with
  | .endMoved => { pair with second := movedEnd batteryName startTime pair }
  | .beginMoved => { pair with first := movedBegin batteryName endTime pair }
  | .otherName | .covered | .nested | .untouched => pair

def mergedSet (batteryName : String) (startTime endTime : ℤ) (pair : EventPair)
    (s : EventSet) : EventSet :=
  match overlap batteryName startTime endTime pair with
  | .covered => s.insert (cancelEvent batteryName startTime pair)
  | .endMoved => (s.erase pair.second).insert (movedEnd batteryName startTime pair)
  | .beginMoved => (s.erase pair.first).insert (movedBegin batteryName endTime pair)
  | .otherName | .nested | .untouched => s

/-- What a merge takes off the current it asks for because of `pair`. -/
def nestedCurrent (batteryName : String) (startTime endTime : ℤ) (pair : EventPair) : ℤ :=
  if overlap batteryName startTime endTime pair = .nested then pair.first.currentMA else 0

theorem mergedPair_numbered {k : ℕ} {pair : EventPair} (h : pair.Numbered k) :
    (mergedPair batteryName startTime endTime pair).Numbered k := by
  unfold mergedPair
  split <;> first | exact h | exact ⟨h.first, h.second⟩

section Entry

variable (batteryName : String) (startTime endTime : ℤ) {m : Merge} {k : ℕ} {pair : EventPair}

theorem mergeEntry_find? (hk : m.eventMap.find? k = some pair) (numbered : pair.Numbered k)
    (k' : ℕ) : (mergeEntry batteryName startTime endTime m k).eventMap.find? k' =
      if k' = k then some (mergedPair batteryName startTime endTime pair)
      else m.eventMap.find? k' := by
  have same : ∀ map : EventMap, map = m.eventMap →
      map.find? k' = if k' = k then some pair else m.eventMap.find? k' := by
    rintro _ rfl
    split_ifs with h
    · rw [h, hk]
    · rfl
  cases h : overlap batteryName startTime endTime pair with
  | endMoved | beginMoved =>
      simp [mergeEntry, mergedPair, hk, h, numbered.first, numbered.second,
        OrderedMap.find?_modify]
  | otherName | covered | nested | untouched =>
      simpa [mergeEntry, mergedPair, hk, h] using same _ rfl

theorem mergeEntry_eventSet (hk : m.eventMap.find? k = some pair) :
    (mergeEntry batteryName startTime endTime m k).eventSet =
      mergedSet batteryName startTime endTime pair m.eventSet := by
  cases h : overlap batteryName startTime endTime pair <;> simp [mergeEntry, mergedSet, hk, h]

theorem mergeEntry_targetCurrentMA (hk : m.eventMap.find? k = some pair) :
    (mergeEntry batteryName startTime endTime m k).targetCurrentMA =
      m.targetCurrentMA - nestedCurrent batteryName startTime endTime pair := by
  cases h : overlap batteryName startTime endTime pair <;> simp [mergeEntry, nestedCurrent, hk, h]

end Entry

def AgreeOn (P : Event → Prop) (s t : EventSet) : Prop := ∀ z, P z → (z ∈ s ↔ z ∈ t)

abbrev AgreeAt (k : ℕ) : EventSet → EventSet → Prop := AgreeOn fun z => z.sequenceNumber = k

/-- A property that the set cannot tell two events of one key apart by. -/
def KeyClosed (P : Event → Prop) : Prop := ∀ x y : Event, x.key = y.key → P x → P y

theorem keyClosed_sequenceNumber (k : ℕ) : KeyClosed fun z => z.sequenceNumber = k :=
  fun _ _ same hx => (Event.key_eq_iff.mp same).2.2.symm.trans hx

namespace AgreeOn

variable {P : Event → Prop} {s t u : EventSet}

theorem refl (P : Event → Prop) (s : EventSet) : AgreeOn P s s := fun _ _ => Iff.rfl

theorem symm (h : AgreeOn P s t) : AgreeOn P t s := fun z hz => (h z hz).symm

theorem trans (h : AgreeOn P s t) (h' : AgreeOn P t u) : AgreeOn P s u :=
  fun z hz => (h z hz).trans (h' z hz)

theorem mono {Q : Event → Prop} (h : AgreeOn P s t) (weaker : ∀ z, Q z → P z) : AgreeOn Q s t :=
  fun z hz => h z (weaker z hz)

theorem insert (closed : KeyClosed P) (h : AgreeOn P s t) (x : Event) :
    AgreeOn P (s.insert x) (t.insert x) := by
  intro z hz
  rw [OrderedSet.mem_insert, OrderedSet.mem_insert, h z hz]
  refine or_congr_right (and_congr_right fun e => ?_)
  have hp : ∀ y : Event, y.key = x.key → P y := fun y hy => closed z y (e ▸ hy.symm) hz
  exact ⟨fun free y hy same => free y ((h y (hp y same)).mpr hy) same,
    fun free y hy same => free y ((h y (hp y same)).mp hy) same⟩

theorem erase (h : AgreeOn P s t) (x : Event) : AgreeOn P (s.erase x) (t.erase x) := by
  intro z hz
  rw [OrderedSet.mem_erase, OrderedSet.mem_erase, h z hz]

end AgreeOn

theorem agreeAt_insert_of_ne {k : ℕ} {x : Event} (s : EventSet) (h : x.sequenceNumber ≠ k) :
    AgreeAt k (s.insert x) s := by
  intro z hz
  rw [OrderedSet.mem_insert]
  exact or_iff_left fun e => h (e.1 ▸ hz)

theorem agreeAt_erase_of_ne {k : ℕ} {x : Event} (s : EventSet) (h : x.sequenceNumber ≠ k) :
    AgreeAt k (s.erase x) s := by
  intro z hz
  rw [OrderedSet.mem_erase]
  exact and_iff_left fun e => h ((Event.key_eq_iff.mp e).2.2 ▸ hz)

theorem agreeAt_mergedSet_of_ne {k k' : ℕ} {pair : EventPair} (numbered : pair.Numbered k')
    (h : k' ≠ k) (s : EventSet) : AgreeAt k (mergedSet batteryName startTime endTime pair s) s := by
  have hfirst : pair.first.sequenceNumber ≠ k := numbered.first.symm ▸ h
  have hsecond : pair.second.sequenceNumber ≠ k := numbered.second.symm ▸ h
  unfold mergedSet
  split
  · exact agreeAt_insert_of_ne s hfirst
  · exact (agreeAt_insert_of_ne (x := movedEnd batteryName startTime pair) _ hsecond).trans
      (agreeAt_erase_of_ne s hsecond)
  · exact (agreeAt_insert_of_ne (x := movedBegin batteryName endTime pair) _ hfirst).trans
      (agreeAt_erase_of_ne s hfirst)
  all_goals exact .refl _ s

theorem AgreeOn.mergedSet {P : Event → Prop} (closed : KeyClosed P) {s t : EventSet}
    (h : AgreeOn P s t) (pair : EventPair) :
    AgreeOn P (mergedSet batteryName startTime endTime pair s)
      (mergedSet batteryName startTime endTime pair t) := by
  unfold V3.mergedSet
  split
  · exact h.insert closed _
  · exact (h.erase _).insert closed _
  · exact (h.erase _).insert closed _
  all_goals exact h

/-- The merge loop over part of the map: each entry it has met is rewritten on its own,
and the currents of the entries that contain the request are taken off the target. -/
theorem mergeLoop (batteryName : String) (startTime endTime : ℤ) (entries : List (ℕ × EventPair))
    (m : Merge) (nodup : (entries.map Prod.fst).Nodup)
    (stored : ∀ q ∈ entries, m.eventMap.find? q.1 = some q.2 ∧ q.2.Numbered q.1) :
    let after := (entries.map Prod.fst).foldl (mergeEntry batteryName startTime endTime) m
    (∀ q ∈ entries,
      after.eventMap.find? q.1 = some (mergedPair batteryName startTime endTime q.2) ∧
        AgreeAt q.1 after.eventSet
          (mergedSet batteryName startTime endTime q.2 m.eventSet)) ∧
    (∀ k, k ∉ entries.map Prod.fst →
      after.eventMap.find? k = m.eventMap.find? k ∧ AgreeAt k after.eventSet m.eventSet) ∧
    after.targetCurrentMA = m.targetCurrentMA -
      ((entries.map fun q => nestedCurrent batteryName startTime endTime q.2).sum : ℤ) := by
  induction entries generalizing m with
  | nil => simp [AgreeOn.refl]
  | cons q rest ih =>
      obtain ⟨hq, numbered⟩ := stored q List.mem_cons_self
      rw [List.map_cons, List.nodup_cons] at nodup
      have find := mergeEntry_find? batteryName startTime endTime hq numbered
      have set := mergeEntry_eventSet batteryName startTime endTime hq
      have other : ∀ k, k ≠ q.1 → AgreeAt k
          (mergeEntry batteryName startTime endTime m q.1).eventSet m.eventSet := by
        intro k hk
        rw [set]
        exact agreeAt_mergedSet_of_ne numbered (Ne.symm hk) _
      obtain ⟨met, unmet, target⟩ := ih (mergeEntry batteryName startTime endTime m q.1) nodup.2
        fun p hp => by
          have ne : p.1 ≠ q.1 := fun e => nodup.1 (e ▸ List.mem_map_of_mem hp)
          rw [find, if_neg ne]
          exact stored p (List.mem_cons_of_mem q hp)
      refine ⟨fun p hp => ?_, fun k hk => ?_, ?_⟩
      · rcases List.mem_cons.mp hp with rfl | hp
        · obtain ⟨hfind, hset⟩ := unmet p.1 nodup.1
          exact ⟨hfind.trans ((find p.1).trans (if_pos rfl)), set ▸ hset⟩
        · have ne : p.1 ≠ q.1 := fun e => nodup.1 (e ▸ List.mem_map_of_mem hp)
          obtain ⟨hfind, hset⟩ := met p hp
          exact ⟨hfind, hset.trans ((other p.1 ne).mergedSet (keyClosed_sequenceNumber p.1) p.2)⟩
      · rw [List.map_cons, List.mem_cons, not_or] at hk
        obtain ⟨hfind, hset⟩ := unmet k hk.2
        exact ⟨hfind.trans ((find k).trans (if_neg hk.1)), hset.trans (other k hk.1)⟩
      · rw [List.map_cons, List.foldl_cons, target, mergeEntry_targetCurrentMA _ _ _ hq, List.map_cons,
          List.sum_cons]
        push_cast
        ring

namespace Battery

variable {b : Battery} {sequenceNumber : ℕ} (batteryName : String) (currentMA : ℚ)
  (startTime endTime : ℤ)

theorem checkMerge_spec (numbered : b.Numbered) (fresh : b.eventMap.find? sequenceNumber = none) :
    let after := b.checkMerge batteryName currentMA startTime endTime sequenceNumber
    (∀ k pair, b.eventMap.find? k = some pair →
      after.eventMap.find? k = some (mergedPair batteryName startTime endTime pair) ∧
        AgreeAt k after.eventSet (mergedSet batteryName startTime endTime pair b.eventSet)) ∧
    (∀ k, b.eventMap.find? k = none →
      after.eventMap.find? k = none ∧ AgreeAt k after.eventSet b.eventSet) ∧
    after.targetCurrentMA = currentMA - ((b.eventMap.elems.map fun q =>
      nestedCurrent batteryName startTime endTime q.2).sum : ℤ) := by
  obtain ⟨met, unmet, target⟩ := mergeLoop batteryName startTime endTime b.eventMap.elems
    ⟨b.eventSet, b.eventMap, currentMA⟩ b.eventMap.keys_nodup fun q hq =>
      have find := OrderedMap.find?_eq_some.mpr hq
      ⟨find, numbered _ _ find⟩
  simp only [checkMerge, fresh]
  refine ⟨fun k pair stored => met (k, pair) (OrderedMap.find?_eq_some.mp stored),
    fun k absent => ?_, target⟩
  obtain ⟨find, agree⟩ := unmet k fun hk => by
    obtain ⟨v, hv⟩ := OrderedMap.mem_keys.mp hk
    rw [absent] at hv
    cases hv
  exact ⟨find.trans absent, agree⟩

theorem checkMerge_eventMap (numbered : b.Numbered)
    (fresh : b.eventMap.find? sequenceNumber = none) :
    (b.checkMerge batteryName currentMA startTime endTime sequenceNumber).eventMap =
      b.eventMap.mapValues (mergedPair batteryName startTime endTime) := by
  obtain ⟨met, unmet, -⟩ :=
    checkMerge_spec batteryName currentMA startTime endTime numbered fresh
  refine OrderedMap.ext fun k => ?_
  rw [OrderedMap.find?_mapValues]
  cases stored : b.eventMap.find? k with
  | none => exact (unmet k stored).1
  | some pair => exact (met k pair stored).1

theorem checkMerge_eventSet_stored (numbered : b.Numbered)
    (fresh : b.eventMap.find? sequenceNumber = none) {k : ℕ} {pair : EventPair}
    (stored : b.eventMap.find? k = some pair) :
    AgreeAt k (b.checkMerge batteryName currentMA startTime endTime sequenceNumber).eventSet
      (mergedSet batteryName startTime endTime pair b.eventSet) :=
  ((checkMerge_spec batteryName currentMA startTime endTime numbered fresh).1 k pair stored).2

theorem checkMerge_eventSet_absent (numbered : b.Numbered)
    (fresh : b.eventMap.find? sequenceNumber = none) {k : ℕ}
    (absent : b.eventMap.find? k = none) :
    AgreeAt k (b.checkMerge batteryName currentMA startTime endTime sequenceNumber).eventSet
      b.eventSet :=
  ((checkMerge_spec batteryName currentMA startTime endTime numbered fresh).2.1 k absent).2

theorem checkMerge_targetCurrentMA (numbered : b.Numbered)
    (fresh : b.eventMap.find? sequenceNumber = none) :
    (b.checkMerge batteryName currentMA startTime endTime sequenceNumber).targetCurrentMA =
      currentMA - ((b.eventMap.elems.map fun q =>
        nestedCurrent batteryName startTime endTime q.2).sum : ℤ) :=
  (checkMerge_spec batteryName currentMA startTime endTime numbered fresh).2.2

theorem checkMerge_free (numbered : b.Numbered) :
    (b.checkMerge batteryName currentMA startTime endTime sequenceNumber).eventMap.find?
      sequenceNumber = none := by
  cases stored : b.eventMap.find? sequenceNumber with
  | some pair =>
      simp only [checkMerge, stored]
      rw [OrderedMap.find?_erase, if_pos rfl]
  | none =>
      rw [checkMerge_eventMap _ _ _ _ numbered stored, OrderedMap.find?_mapValues, stored]
      rfl

def insertedPair (b : Battery) (batteryName : String) (currentMA : ℚ) (startTime endTime : ℤ)
    (k : ℕ) : EventPair :=
  requestPair batteryName
    (truncate (b.checkMerge batteryName currentMA startTime endTime k).targetCurrentMA)
    startTime endTime k

theorem insertEvents_find? (numbered : b.Numbered) (k : ℕ) :
    (b.checkMergeAndInsertEvents batteryName currentMA startTime endTime
      sequenceNumber).eventMap.find? k =
      if k = sequenceNumber then
        some (b.insertedPair batteryName currentMA startTime endTime sequenceNumber)
      else (b.checkMerge batteryName currentMA startTime endTime sequenceNumber).eventMap.find? k := by
  have free : (b.checkMerge batteryName currentMA startTime endTime
      sequenceNumber).eventMap.find? sequenceNumber = none :=
    checkMerge_free batteryName currentMA startTime endTime numbered
  simp only [checkMergeAndInsertEvents]
  rw [OrderedMap.find?_insert, free]
  rfl

end Battery

end BatteryOS.V3
