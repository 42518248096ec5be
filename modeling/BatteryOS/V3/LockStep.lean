import BatteryOS.V3.Consistency

/-! Two schedulers that receive the same requests of one name, among requests of other
names that need not be the same. A merge looks at the entries of its own name only, so
the two keep the same entries and events under the numbers of that name. -/

namespace BatteryOS.V3

def Scheduling (k : ℕ) (z : Event) : Prop := z.eventID ≠ .refresh ∧ z.sequenceNumber = k

theorem keyClosed_scheduling (k : ℕ) : KeyClosed (Scheduling k) := by
  rintro x y same ⟨hid, number⟩
  obtain ⟨-, sameID, sameNumber⟩ := Event.key_eq_iff.mp same
  exact ⟨sameID ▸ hid, sameNumber ▸ number⟩

namespace Battery

/-- The same entries and events under the numbers in `K`. -/
structure LockStep (K : ℕ → Prop) (b b' : Battery) : Prop where
  eventMap : ∀ k, K k → b.eventMap.find? k = b'.eventMap.find? k
  eventSet : ∀ k, K k → AgreeOn (Scheduling k) b.eventSet b'.eventSet

theorem LockStep.symm {K : ℕ → Prop} {b b' : Battery} (h : LockStep K b b') : LockStep K b' b :=
  ⟨fun k hk => (h.eventMap k hk).symm, fun k hk => (h.eventSet k hk).symm⟩

theorem LockStep.trans {K : ℕ → Prop} {b c d : Battery} (h : LockStep K b c)
    (h' : LockStep K c d) : LockStep K b d :=
  ⟨fun k hk => (h.eventMap k hk).trans (h'.eventMap k hk),
    fun k hk => (h.eventSet k hk).trans (h'.eventSet k hk)⟩

/-- Entries and events carry the name that their number belongs to. -/
structure Owned (owner : ℕ → String) (b : Battery) : Prop where
  numbered : b.Numbered
  entries : ∀ k pair, b.eventMap.find? k = some pair → pair.first.batteryName = owner k
  events : ∀ z ∈ b.eventSet, z.eventID ≠ .refresh → z.batteryName = owner z.sequenceNumber

variable {b b' : Battery} {owner : ℕ → String} {k sequenceNumber : ℕ} (name : String)
  (currentMA : ℚ) (startTime endTime : ℤ)

theorem overlap_of_otherName {pair : EventPair} (h : pair.first.batteryName ≠ name) :
    overlap name startTime endTime pair = .otherName :=
  overlap_eq_otherName.mpr h.symm

theorem checkMerge_other (numbered : b.Numbered) (hk : k ≠ sequenceNumber)
    (other : ∀ pair, b.eventMap.find? k = some pair → pair.first.batteryName ≠ name) :
    let m := b.checkMerge name currentMA startTime endTime sequenceNumber
    m.eventMap.find? k = b.eventMap.find? k ∧ AgreeAt k m.eventSet b.eventSet := by
  cases stored : b.eventMap.find? sequenceNumber with
  | some pair =>
      simp only [checkMerge, stored]
      have interval := numbered _ _ stored
      refine ⟨by rw [OrderedMap.find?_erase, if_neg hk], ?_⟩
      exact (agreeAt_erase_of_ne _ (interval.second.symm ▸ hk.symm)).trans
        (agreeAt_erase_of_ne _ (interval.first.symm ▸ hk.symm))
  | none =>
      dsimp only
      rw [checkMerge_eventMap _ _ _ _ numbered stored, OrderedMap.find?_mapValues]
      cases at_k : b.eventMap.find? k with
      | none => exact ⟨rfl, checkMerge_eventSet_absent _ _ _ _ numbered stored at_k⟩
      | some pair =>
          have skip := overlap_of_otherName name startTime endTime (other pair at_k)
          have set := checkMerge_eventSet_stored name currentMA startTime endTime numbered stored at_k
          simp only [mergedSet, skip] at set
          exact ⟨by simp only [Option.map_some, mergedPair, skip], set⟩

theorem insertEvents_other (numbered : b.Numbered) {K : ℕ → Prop} (hq : ¬ K sequenceNumber)
    (other : ∀ k pair, K k → b.eventMap.find? k = some pair → pair.first.batteryName ≠ name) :
    LockStep K (b.checkMergeAndInsertEvents name currentMA startTime endTime sequenceNumber) b := by
  have ne : ∀ k, K k → k ≠ sequenceNumber := fun k hk e => hq (e ▸ hk)
  refine ⟨fun k hk => ?_, fun k hk => ?_⟩
  · rw [insertEvents_find? _ _ _ _ numbered, if_neg (ne k hk)]
    exact (checkMerge_other name currentMA startTime endTime numbered (ne k hk)
      fun pair => other k pair hk).1
  · have merged := (checkMerge_other name currentMA startTime endTime numbered (ne k hk)
      fun pair => other k pair hk).2
    have inserted : AgreeAt k
        (b.checkMergeAndInsertEvents name currentMA startTime endTime sequenceNumber).eventSet
        (b.checkMerge name currentMA startTime endTime sequenceNumber).eventSet :=
      (agreeAt_insert_of_ne _ (ne k hk).symm).trans (agreeAt_insert_of_ne _ (ne k hk).symm)
    exact (inserted.trans merged).mono fun z hz => hz.2

section Same

variable {K : ℕ → Prop} (h : LockStep K b b') (numbered : b.Numbered) (numbered' : b'.Numbered)
  (hq : K sequenceNumber)
  (own : ∀ k pair, b.eventMap.find? k = some pair → pair.first.batteryName = name → K k)
  (own' : ∀ k pair, b'.eventMap.find? k = some pair → pair.first.batteryName = name → K k)
include h numbered numbered' hq own own'

theorem LockStep.targetCurrentMA :
    (b.checkMerge name currentMA startTime endTime sequenceNumber).targetCurrentMA =
      (b'.checkMerge name currentMA startTime endTime sequenceNumber).targetCurrentMA := by
  have same := h.eventMap sequenceNumber hq
  cases stored : b.eventMap.find? sequenceNumber with
  | some pair =>
      rw [stored] at same
      simp only [checkMerge, stored, ← same]
  | none =>
      rw [stored] at same
      rw [checkMerge_targetCurrentMA _ _ _ _ numbered stored,
        checkMerge_targetCurrentMA _ _ _ _ numbered' same.symm]
      congr 2
      change b.eventMap.sumBy (fun _ pair => nestedCurrent name startTime endTime pair) =
        b'.eventMap.sumBy fun _ pair => nestedCurrent name startTime endTime pair
      have skipped : ∀ (m : EventMap) k, ¬ K k →
          (∀ pair, m.find? k = some pair → pair.first.batteryName = name → K k) →
          (m.find? k).elim 0 (fun pair => nestedCurrent name startTime endTime pair) = 0 := by
        intro m k hk owned
        cases at_k : m.find? k with
        | none => rfl
        | some pair =>
            have skip := overlap_of_otherName name startTime endTime
              fun e => hk (owned pair at_k e)
            simp only [Option.elim_some, nestedCurrent, skip, reduceCtorEq, if_false]
      refine OrderedMap.sumBy_congr fun k => ?_
      by_cases hk : K k
      · rw [h.eventMap k hk]
      · rw [skipped _ k hk (own k), skipped _ k hk (own' k)]

theorem LockStep.insertedPair :
    b.insertedPair name currentMA startTime endTime sequenceNumber =
      b'.insertedPair name currentMA startTime endTime sequenceNumber := by
  unfold Battery.insertedPair
  rw [h.targetCurrentMA name currentMA startTime endTime numbered numbered' hq own own']

theorem LockStep.insertEvents :
    LockStep K (b.checkMergeAndInsertEvents name currentMA startTime endTime sequenceNumber)
      (b'.checkMergeAndInsertEvents name currentMA startTime endTime sequenceNumber) := by
  have pair := h.insertedPair name currentMA startTime endTime numbered numbered' hq own own'
  have same := h.eventMap sequenceNumber hq
  have merged : ∀ k, K k →
      (b.checkMerge name currentMA startTime endTime sequenceNumber).eventMap.find? k =
        (b'.checkMerge name currentMA startTime endTime sequenceNumber).eventMap.find? k ∧
      AgreeOn (Scheduling k)
        (b.checkMerge name currentMA startTime endTime sequenceNumber).eventSet
        (b'.checkMerge name currentMA startTime endTime sequenceNumber).eventSet := by
    intro k hk
    cases stored : b.eventMap.find? sequenceNumber with
    | some old =>
        rw [stored] at same
        simp only [checkMerge, stored, ← same]
        refine ⟨?_, ((h.eventSet k hk).erase _).erase _⟩
        rw [OrderedMap.find?_erase, OrderedMap.find?_erase, h.eventMap k hk]
    | none =>
        rw [stored] at same
        rw [checkMerge_eventMap _ _ _ _ numbered stored,
          checkMerge_eventMap _ _ _ _ numbered' same.symm, OrderedMap.find?_mapValues,
          OrderedMap.find?_mapValues, h.eventMap k hk]
        refine ⟨rfl, ?_⟩
        have only : ∀ z, Scheduling k z → z.sequenceNumber = k := fun z hz => hz.2
        cases at_k : b.eventMap.find? k with
        | none =>
            have at_k' := (h.eventMap k hk).symm.trans at_k
            exact ((checkMerge_eventSet_absent _ _ _ _ numbered stored at_k).mono only).trans
              ((h.eventSet k hk).trans
                ((checkMerge_eventSet_absent _ _ _ _ numbered' same.symm at_k').mono only).symm)
        | some old =>
            have at_k' := (h.eventMap k hk).symm.trans at_k
            exact ((checkMerge_eventSet_stored _ _ _ _ numbered stored at_k).mono only).trans
              (((h.eventSet k hk).mergedSet (keyClosed_scheduling k) old).trans
                ((checkMerge_eventSet_stored _ _ _ _ numbered' same.symm at_k').mono only).symm)
  refine ⟨fun k hk => ?_, fun k hk => ?_⟩
  · rw [insertEvents_find? _ _ _ _ numbered, insertEvents_find? _ _ _ _ numbered', pair,
      (merged k hk).1]
  · have first := (merged k hk).2.insert (keyClosed_scheduling k)
      (b.insertedPair name currentMA startTime endTime sequenceNumber).first
    have both := first.insert (keyClosed_scheduling k)
      (b.insertedPair name currentMA startTime endTime sequenceNumber).second
    conv at both => rhs; rw [pair]
    exact both

end Same

theorem mem_insertEvents_cases (numbered : b.Numbered) {z : Event}
    (hz : z ∈ (b.checkMergeAndInsertEvents name currentMA startTime endTime
      sequenceNumber).eventSet) :
    z ∈ b.eventSet ∨ z.batteryName = name ∧ (z.sequenceNumber = sequenceNumber ∨
      ∃ pair, b.eventMap.find? z.sequenceNumber = some pair ∧ pair.first.batteryName = name) := by
  have inserted : z ∈ (b.checkMerge name currentMA startTime endTime sequenceNumber).eventSet ∨
      z.batteryName = name ∧ z.sequenceNumber = sequenceNumber := by
    rcases OrderedSet.mem_insert.mp hz with hz | ⟨rfl, -⟩
    · rcases OrderedSet.mem_insert.mp hz with hz | ⟨rfl, -⟩
      · exact .inl hz
      · exact .inr ⟨rfl, rfl⟩
    · exact .inr ⟨rfl, rfl⟩
  rcases inserted with hz | hz
  swap
  · exact .inr ⟨hz.1, .inl hz.2⟩
  cases stored : b.eventMap.find? sequenceNumber with
  | some pair =>
      simp only [checkMerge, stored, OrderedSet.mem_erase] at hz
      exact .inl hz.1.1
  | none =>
      cases at_z : b.eventMap.find? z.sequenceNumber with
      | none =>
          exact .inl ((checkMerge_eventSet_absent _ _ _ _ numbered stored at_z z rfl).mp hz)
      | some pair =>
          have hz := (checkMerge_eventSet_stored _ _ _ _ numbered stored at_z z rfl).mp hz
          by_cases same : pair.first.batteryName = name
          · unfold mergedSet at hz
            split at hz
            · rcases OrderedSet.mem_insert.mp hz with hz | ⟨rfl, -⟩
              · exact .inl hz
              · exact .inr ⟨rfl, .inr ⟨pair, rfl, same⟩⟩
            · rcases OrderedSet.mem_insert.mp hz with hz | ⟨rfl, -⟩
              · exact .inl (OrderedSet.mem_erase.mp hz).1
              · exact .inr ⟨rfl, .inr ⟨pair, rfl, same⟩⟩
            · rcases OrderedSet.mem_insert.mp hz with hz | ⟨rfl, -⟩
              · exact .inl (OrderedSet.mem_erase.mp hz).1
              · exact .inr ⟨rfl, .inr ⟨pair, rfl, same⟩⟩
            all_goals exact .inl hz
          · simp only [mergedSet, overlap_of_otherName name startTime endTime same] at hz
            exact .inl hz

theorem find?_insertEvents_cases (numbered : b.Numbered) {pair : EventPair}
    (stored : (b.checkMergeAndInsertEvents name currentMA startTime endTime
      sequenceNumber).eventMap.find? k = some pair) :
    k = sequenceNumber ∧ pair = b.insertedPair name currentMA startTime endTime sequenceNumber ∨
      k ≠ sequenceNumber ∧ ∃ old, b.eventMap.find? k = some old ∧
        (pair = old ∨ pair = mergedPair name startTime endTime old) := by
  rw [insertEvents_find? _ _ _ _ numbered] at stored
  split_ifs at stored with hk
  · exact .inl ⟨hk, (Option.some.inj stored).symm⟩
  refine .inr ⟨hk, ?_⟩
  cases replaced : b.eventMap.find? sequenceNumber with
  | some old =>
      simp only [checkMerge, replaced, OrderedMap.find?_erase, if_neg hk] at stored
      exact ⟨pair, stored, .inl rfl⟩
  | none =>
      rw [checkMerge_eventMap _ _ _ _ numbered replaced, OrderedMap.find?_mapValues] at stored
      obtain ⟨old, at_k, rfl⟩ := Option.map_eq_some_iff.mp stored
      exact ⟨old, at_k, .inr rfl⟩

theorem numbered_insertEvents (numbered : b.Numbered) :
    (b.checkMergeAndInsertEvents name currentMA startTime endTime sequenceNumber).Numbered := by
  intro k pair stored
  rcases find?_insertEvents_cases name currentMA startTime endTime numbered stored with
    ⟨rfl, rfl⟩ | ⟨-, old, at_k, rfl | rfl⟩
  · exact ⟨rfl, rfl⟩
  · exact numbered k _ at_k
  · exact mergedPair_numbered (numbered k old at_k)

theorem Owned.insertEvents (h : b.Owned owner) (name_owner : owner sequenceNumber = name) :
    (b.checkMergeAndInsertEvents name currentMA startTime endTime sequenceNumber).Owned owner := by
  refine ⟨numbered_insertEvents name currentMA startTime endTime h.numbered,
    fun k pair stored => ?_, fun z hz hid => ?_⟩
  · rcases find?_insertEvents_cases name currentMA startTime endTime h.numbered stored with
      ⟨rfl, rfl⟩ | ⟨-, old, at_k, rfl | rfl⟩
    · exact name_owner.symm
    · exact h.entries k _ at_k
    · exact (mergedPair_batteryName _ _ _).trans (h.entries k old at_k)
  rcases mem_insertEvents_cases name currentMA startTime endTime h.numbered hz with
    hz | ⟨hname, number | ⟨pair, stored, same⟩⟩
  · exact h.events z hz hid
  · rw [hname, number, name_owner]
  · rw [hname, ← same, h.entries _ pair stored]

end Battery

end BatteryOS.V3
