import BatteryOS.V3.WakeUp

/-! A thread that wakes up late. Where no cancel is queued, the scan of one wake-up goes on where an
earlier one would have stopped, so that a delayed thread ends in the state of a punctual one. -/

namespace BatteryOS.V3

section Scan

variable {driver : Driver} {now : ℤ} {fuel n : ℕ} {b b' c : Battery} {x : Event}
  {eventVector : List Event} {iter : Option Event}

/-- Two batteries that a scan from `iter` cannot tell apart: the statuses and the events before
`iter` may differ. -/
structure AgreeFrom (iter : Option Event) (b b' : Battery) : Prop where
  refreshMode : b'.refreshMode = b.refreshMode
  maxStaleness : b'.maxStaleness = b.maxStaleness
  events : ∀ z, ¬ Before z iter → (z ∈ b'.eventSet ↔ z ∈ b.eventSet)

theorem AgreeFrom.refl (iter : Option Event) (b : Battery) : AgreeFrom iter b b :=
  ⟨rfl, rfl, fun _ _ => Iff.rfl⟩

theorem AgreeFrom.symm (h : AgreeFrom iter b b') : AgreeFrom iter b' b :=
  ⟨h.refreshMode.symm, h.maxStaleness.symm, fun z hz => (h.events z hz).symm⟩

theorem AgreeFrom.trans (h : AgreeFrom iter b b') (h' : AgreeFrom iter b' c) :
    AgreeFrom iter b c :=
  ⟨h'.refreshMode.trans h.refreshMode, h'.maxStaleness.trans h.maxStaleness,
    fun z hz => (h'.events z hz).trans (h.events z hz)⟩

theorem AgreeFrom.live (h : AgreeFrom iter b b') (live : b.Live) : b'.Live := by
  rwa [Battery.Live, h.refreshMode, h.maxStaleness]

theorem AgreeFrom.next (h : AgreeFrom (some x) b b') :
    b'.eventSet.next x = b.eventSet.next x ∧ AgreeFrom (b.eventSet.next x) b b' := by
  have later : ∀ z, x.key < z.key → (z ∈ b'.eventSet ↔ z ∈ b.eventSet) :=
    fun z hz => h.events z (not_before_some.mpr hz.le)
  exact ⟨OrderedSet.next_congr later, h.refreshMode, h.maxStaleness,
    fun z hz => later z (lt_of_not_before_next hz)⟩

theorem AgreeFrom.refreshAt (driver driver' : Driver) (now now' : ℤ) (n : ℕ)
    (h : AgreeFrom (some x) b b') (live : b.Live) :
    (b'.refreshAt driver' now' n x).2 = (b.refreshAt driver now n x).2 ∧
      AgreeFrom (some x) (b.refreshAt driver now n x).1 (b'.refreshAt driver' now' n x).1 := by
  unfold Battery.refreshAt
  rw [h.refreshMode, h.maxStaleness]
  split_ifs with active
  · have stale : 0 < b.maxStaleness := live.resolve_left (by simp [active])
    refine ⟨rfl, rfl, rfl, fun z hz => ?_⟩
    dsimp only
    set fresh : Event := { x with eventTime := x.eventTime + b.maxStaleness, sequenceNumber := n }
    have ahead : ∀ y : Event, y.key = fresh.key → ¬ Before y (some x) := fun y same => by
      rw [not_before_some, same, Event.key_le_iff]
      exact .inl (lt_add_of_pos_right _ stale)
    have free : (∀ y ∈ b'.eventSet, y.key ≠ fresh.key) ↔ ∀ y ∈ b.eventSet, y.key ≠ fresh.key :=
      ⟨fun free y hy same => free y ((h.events y (ahead y same)).mpr hy) same,
        fun free y hy same => free y ((h.events y (ahead y same)).mp hy) same⟩
    rw [OrderedSet.mem_insert, OrderedSet.mem_insert, h.events z hz, free]
  · exact ⟨rfl, rfl, rfl, h.events⟩

/-- What two scans have in common that start at one place, with lists collected before. -/
structure InStep (eventVector eventVector' : List Event) (r r' : Scan) : Prop where
  sequenceNumber : r'.sequenceNumber = r.sequenceNumber
  iter : r'.iter = r.iter
  collected : ∃ rest, r.eventVector = eventVector ++ rest ∧ r'.eventVector = eventVector' ++ rest
  agree : AgreeFrom r.iter r.battery r'.battery

theorem AgreeFrom.inStep {eventVector' : List Event} (h : AgreeFrom iter b b') :
    InStep eventVector eventVector' ⟨b, n, eventVector, iter⟩ ⟨b', n, eventVector', iter⟩ :=
  ⟨rfl, rfl, ⟨[], by simp, by simp⟩, h⟩

theorem InStep.of_append {eventVector' collected : List Event} {r r' : Scan}
    (h : InStep (eventVector ++ collected) (eventVector' ++ collected) r r') :
    InStep eventVector eventVector' r r' := by
  obtain ⟨rest, first, second⟩ := h.collected
  exact ⟨h.sequenceNumber, h.iter, ⟨collected ++ rest, by rw [first, List.append_assoc],
    by rw [second, List.append_assoc]⟩, h.agree⟩

theorem InStep.trans_agree {eventVector' collected : List Event} {r r' r'' : Scan}
    (h : InStep eventVector eventVector' r r') (h' : InStep collected collected r' r'') :
    InStep eventVector eventVector' r r'' := by
  obtain ⟨rest, first, second⟩ := h.collected
  obtain ⟨same, first', second'⟩ := h'.collected
  refine ⟨h'.sequenceNumber.trans h.sequenceNumber, h'.iter.trans h.iter,
    ⟨rest, first, ?_⟩, h.agree.trans (h.iter ▸ h'.agree)⟩
  rw [second', ← first', second]

theorem scan_agree (eventVector' : List Event) {r : Scan} (live : b.Live)
    (agree : AgreeFrom iter b b') (h : scan driver now fuel b n eventVector iter = some r) :
    ∃ r', scan driver now fuel b' n eventVector' iter = some r' ∧
      InStep eventVector eventVector' r r' := by
  induction fuel generalizing b b' n eventVector eventVector' iter with
  | zero => simp [scan] at h
  | succ fuel ih =>
      cases iter with
      | none =>
          obtain rfl : _ = r := by simpa only [scan, Option.some_inj] using h
          exact ⟨_, rfl, agree.inStep⟩
      | some x =>
          rw [scan] at h ⊢
          split_ifs at h ⊢ with hdue
          · obtain rfl := Option.some.inj h
            exact ⟨_, rfl, agree.inStep⟩
          cases hid : x.eventID with
          | setCurrentBegin | setCurrentEnd =>
              simp only [hid] at h ⊢
              obtain ⟨same, agree'⟩ := agree.next
              rw [same]
              obtain ⟨r', run, inStep⟩ := ih (eventVector' ++ [x]) live agree' h
              exact ⟨r', run, inStep.of_append⟩
          | cancelSetCurrentEvent =>
              simp only [hid, Option.some_inj] at h ⊢
              exact ⟨_, rfl, h ▸ agree.inStep⟩
          | refresh =>
              simp only [hid] at h ⊢
              have live' := (refreshAt_refreshed driver now b n hid).live live
              obtain ⟨number, agree'⟩ :=
                AgreeFrom.refreshAt driver driver now now n agree live
              obtain ⟨same, agree''⟩ := agree'.next
              rw [same, number]
              obtain ⟨r', run, inStep⟩ := ih (eventVector' ++ [x]) live' agree'' h
              exact ⟨r', run, inStep.of_append⟩

/-- A scan at a later time passes the place where an earlier one stops, and goes on there. -/
theorem scan_resume {fuel' : ℕ} {later : ℤ} {resumed : List Event} {r r' : Scan} (le : now ≤ later)
    (live : b.Live) (no_cancel : ∀ z ∈ b.eventSet, z.eventID ≠ .cancelSetCurrentEvent)
    (hiter : ∀ x, iter = some x → x ∈ b.eventSet)
    (h : scan driver now fuel b n eventVector iter = some r) (agree : AgreeFrom r.iter r.battery c)
    (rest : scan driver later fuel' c r.sequenceNumber resumed r.iter = some r') :
    ∃ whole, scan driver later (fuel + fuel') b n eventVector iter = some whole ∧
      InStep resumed r.eventVector r' whole := by
  induction fuel generalizing b n eventVector iter with
  | zero => simp [scan] at h
  | succ fuel ih =>
      have more : fuel + 1 + fuel' = fuel + fuel' + 1 := by omega
      -- where the earlier scan stops, the later one is at the start of the resumed scan
      have stopped (same : r = ⟨b, n, eventVector, iter⟩) :
          ∃ whole, scan driver later (fuel + 1 + fuel') b n eventVector iter = some whole ∧
            InStep resumed r.eventVector r' whole := by
        subst same
        obtain ⟨whole, run, inStep⟩ := scan_agree eventVector (agree.live live) agree.symm rest
        exact ⟨whole, scan_mono run (Nat.le_add_left ..), inStep⟩
      cases iter with
      | none => exact stopped (by simpa only [scan, Option.some_inj] using h.symm)
      | some x =>
          have hx := hiter x rfl
          rw [scan] at h
          split_ifs at h with hdue
          · exact stopped (Option.some.inj h).symm
          have due : ¬ x.eventTime > later := not_lt.mpr ((not_lt.mp hdue).trans le)
          cases hid : x.eventID with
          | setCurrentBegin | setCurrentEnd =>
              simp only [hid] at h
              rw [more, scan, if_neg due]
              simp only [hid]
              exact ih live no_cancel (fun y hy => (OrderedSet.next_eq_some hy).1) h
          | cancelSetCurrentEvent => exact absurd hid (no_cancel x hx)
          | refresh =>
              simp only [hid] at h
              have refreshed := refreshAt_refreshed driver now b n hid
              obtain ⟨whole, run, inStep⟩ := ih (refreshed.live live) (fun z hz zid =>
                no_cancel z ((refreshed.events z (by simp [zid])).mp hz) zid)
                (fun y hy => (OrderedSet.next_eq_some hy).1) h
              -- the statuses of the two refreshes differ, the queues do not
              obtain ⟨number, agree'⟩ :=
                AgreeFrom.refreshAt driver driver now later n (.refl (some x) b) live
              obtain ⟨same, agree''⟩ := agree'.next
              obtain ⟨whole', run', inStep'⟩ :=
                scan_agree (eventVector ++ [x]) (refreshed.live live) agree'' run
              rw [more, scan, if_neg due]
              simp only [hid]
              rw [same, number]
              exact ⟨whole', run', inStep.trans_agree inStep'⟩

end Scan

section Drain

variable {driver : Driver} {now : ℤ} {fuel n : ℕ} {b : Battery}

def EventThread.of (b : Battery) (n : ℕ) : EventThread := ⟨b, n, b.currentMA⟩

theorem runEventThread_commanded {n' : ℕ} {b' : Battery} {commanded : Option ℤ}
    (h : b.runEventThread driver fuel n now = .done b' n' commanded) :
    b'.currentMA = commanded.getD b.currentMA := by
  obtain ⟨s, c, hscan, hcancel, -, happly⟩ := Battery.runEventThread_eq_done h
  have refreshed := (scan_walked hscan (walked_begin now b)).1
  have same : c.currentMA = s.battery.currentMA := by
    rcases Battery.cancel_eq_some hcancel with ⟨rfl, -⟩ | ⟨x, pair, -, -, -, rfl⟩ <;> rfl
  rw [(applyEvents_commanded happly).1, same, refreshed.currentMA]

theorem EventThread.wakeUp_of {τ : EventThread}
    (h : (EventThread.of b n).wakeUp driver now fuel = .waits τ) :
    τ = .of τ.battery τ.sequenceNumber := by
  induction fuel generalizing b n with
  | zero => cases h
  | succ fuel ih =>
      rw [wakeUp] at h
      split_ifs at h
      · cases h
        rfl
      cases hbatch : (EventThread.of b n).battery.runEventThread driver fuel
          (EventThread.of b n).sequenceNumber now with
      | running =>
          rw [hbatch] at h
          cases h
      | outOfRange =>
          rw [hbatch] at h
          cases h
      | done b' n' commanded =>
          rw [hbatch] at h
          dsimp only [EventThread.of] at h hbatch
          rw [← runEventThread_commanded hbatch] at h
          exact ih h

/-- What a wake-up without cancels comes to: all that its scan has passed is applied and gone. -/
structure Drained (b : Battery) (r : Scan) (σ : EventThread) : Prop where
  currentMA : σ.battery.currentMA = b.currentMA + (r.eventVector.map Battery.delta).sum
  find? : ∀ k, σ.battery.eventMap.find? k =
    if ∃ y ∈ r.eventVector, y.eventID = .setCurrentEnd ∧ y.sequenceNumber = k then none
    else b.eventMap.find? k
  mem : ∀ z, z ∈ σ.battery.eventSet ↔ z ∈ r.battery.eventSet ∧ ¬ Before z r.iter
  refreshMode : σ.battery.refreshMode = b.refreshMode
  maxStaleness : σ.battery.maxStaleness = b.maxStaleness
  sequenceNumber : σ.sequenceNumber = r.sequenceNumber

theorem foldl_applyEvent_currentMA (eventVector : List Event) (b : Battery) :
    (eventVector.foldl Battery.applyEvent b).currentMA =
      b.currentMA + (eventVector.map Battery.delta).sum := by
  induction eventVector generalizing b with
  | nil => simp
  | cons x rest ih =>
      rw [List.foldl_cons, ih, Battery.applyEvent_currentMA, List.map_cons, List.sum_cons, add_assoc]

theorem drained_of_batch {r : Scan} {b' : Battery} {commanded : Option ℤ} (live : b.Live)
    (hscan : scan driver now fuel b n [] b.eventSet.begin = some r)
    (happly : (b', commanded) = r.battery.applyEvents driver r.eventVector) :
    Drained b r ⟨b', r.sequenceNumber, commanded.getD b.currentMA⟩ := by
  obtain ⟨refreshed, walked, -⟩ := scan_walked hscan (walked_begin now b)
  have swept := scan_swept hscan (fun x hx => (OrderedSet.begin_eq_some hx).1)
    (swept_begin (.inl live))
  have gone : ∀ z, (z ∈ r.battery.eventSet ∧ ∀ y ∈ r.eventVector, z.key ≠ y.key) ↔
      z ∈ r.battery.eventSet ∧ ¬ Before z r.iter := by
    intro z
    refine and_congr_right fun hz => ⟨fun apart before => apart z (swept.all z hz before) rfl, ?_⟩
    intro behind y hy same
    exact behind fun x hx => same ▸ walked.before y hy x hx
  by_cases empty : r.battery.eventSet.elems = []
  · have nothing : r.eventVector = [] := List.eq_nil_iff_forall_not_mem.mpr fun y hy => by
      have := walked.member y hy
      rw [OrderedSet.mem_def, empty] at this
      cases this
    rw [Battery.applyEvents_of_empty driver empty] at happly
    obtain rfl := (Prod.ext_iff.mp happly).1
    refine ⟨?_, fun k => ?_, fun z => ?_, refreshed.refreshMode, refreshed.maxStaleness, rfl⟩
    · simp [nothing, refreshed.currentMA]
    · simp [nothing, refreshed.eventMap]
    · rw [← gone]
      simp [nothing]
  · obtain ⟨status, _, applied, -⟩ := Battery.applyEvents_of_nonempty driver empty r.eventVector
    rw [applied] at happly
    obtain rfl := (Prod.ext_iff.mp happly).1
    obtain ⟨-, mode, staleness⟩ := foldl_applyEvent_fields r.eventVector r.battery
    refine ⟨?_, fun k => ?_, fun z => ?_, mode.trans refreshed.refreshMode,
      staleness.trans refreshed.maxStaleness, rfl⟩
    · exact (foldl_applyEvent_currentMA ..).trans (by rw [refreshed.currentMA])
    · exact (Battery.foldl_applyEvent_find? ..).trans (by rw [refreshed.eventMap])
    · exact (Battery.mem_foldl_applyEvent ..).trans (gone z)

theorem scan_of_waits {r : Scan} (waits : b.Waits now)
    (hscan : scan driver now fuel b n [] b.eventSet.begin = some r) :
    r = ⟨b, n, [], b.eventSet.begin⟩ := by
  cases fuel with
  | zero => simp [scan] at hscan
  | succ fuel =>
      cases hbegin : b.eventSet.begin with
      | none =>
          rw [hbegin] at hscan
          simpa only [scan, Option.some_inj] using hscan.symm
      | some x =>
          rw [hbegin, scan, if_pos (waits x hbegin)] at hscan
          exact (Option.some.inj hscan).symm

theorem exists_wakeUp_drained {r : Scan} (live : b.Live)
    (no_cancel : ∀ z ∈ b.eventSet, z.eventID ≠ .cancelSetCurrentEvent)
    (hscan : scan driver now fuel b n [] b.eventSet.begin = some r) :
    ∃ fuel σ, (EventThread.of b n).wakeUp driver now fuel = .waits σ ∧ Drained b r σ := by
  by_cases waits : b.Waits now
  · obtain rfl := scan_of_waits waits hscan
    refine ⟨1, _, EventThread.wakeUp_of_waits waits 0, by simp [EventThread.of], fun k => by
      simp [EventThread.of], fun z => ?_, rfl, rfl, rfl⟩
    refine (and_iff_left_of_imp fun hz before => ?_).symm
    cases hbegin : b.eventSet.begin with
    | none => exact OrderedSet.begin_eq_none.mp hbegin z hz
    | some x =>
        exact absurd ((OrderedSet.begin_eq_some hbegin).2 z hz) (not_le.mpr (before x hbegin))
  · obtain ⟨refreshed, walked, -⟩ := scan_walked hscan (walked_begin now b)
    have kept : r.battery.cancel r.iter = some r.battery := by
      cases hiter : r.iter with
      | none => rfl
      | some x =>
          rw [Battery.cancel, if_neg fun xid => ?_]
          exact no_cancel x ((refreshed.events x (by simp [xid])).mp (walked.iter_mem x hiter)) xid
    obtain ⟨⟨b', commanded⟩, happly⟩ : ∃ applied, applied =
        r.battery.applyEvents driver r.eventVector := ⟨_, rfl⟩
    have done : b.runEventThread driver fuel n now = .done b' r.sequenceNumber commanded := by
      rw [Battery.runEventThread, hscan]
      simp only [kept, ← happly]
    have rest : b'.Waits now := by
      refine (waits_or_fewer_cancels (.inl live) done).resolve_right fun fewer => ?_
      obtain ⟨z, hz, -⟩ := Finset.exists_of_ssubset fewer
      obtain ⟨member, zid⟩ := Battery.mem_cancels.mp hz
      exact no_cancel z member zid
    obtain ⟨fuel', wakeUp⟩ := EventThread.exists_wakeUp_of_batch (σ := .of b n) waits done
      (EventThread.wakeUp_of_waits rest 0) (by simp)
    exact ⟨fuel', _, wakeUp, drained_of_batch live hscan happly⟩

theorem Drained.begin {r : Scan} {σ : EventThread} (drained : Drained b r σ)
    (hscan : scan driver now fuel b n [] b.eventSet.begin = some r) :
    σ.battery.eventSet.begin = r.iter := by
  have walked := (scan_walked hscan (walked_begin now b)).2.1
  cases hiter : r.iter with
  | none =>
      refine OrderedSet.begin_eq_none.mpr fun z hz => ((drained.mem z).mp hz).2 ?_
      intro x hx
      rw [hiter] at hx
      cases hx
  | some x =>
      refine OrderedSet.begin_eq_some_iff.mpr ⟨?_, fun z hz => ?_⟩
      · exact (drained.mem x).mpr ⟨walked.iter_mem x hiter, by rw [hiter, not_before_some]⟩
      · rw [← not_before_some, ← hiter]
        exact ((drained.mem z).mp hz).2

structure SameState (σ τ : EventThread) : Prop where
  currentMA : σ.battery.currentMA = τ.battery.currentMA
  eventMap : σ.battery.eventMap = τ.battery.eventMap
  eventSet : σ.battery.eventSet = τ.battery.eventSet
  lastCommanded : σ.lastCommanded = τ.lastCommanded
  sequenceNumber : σ.sequenceNumber = τ.sequenceNumber

theorem Drained.sameState {r r' whole : Scan} {σ σ' τ : EventThread} (first : Drained b r σ)
    (second : Drained σ.battery r' σ') (once : Drained b whole τ)
    (inStep : InStep [] r.eventVector r' whole) (commanded : σ' = .of σ'.battery σ'.sequenceNumber)
    (commanded' : τ = .of τ.battery τ.sequenceNumber) : SameState σ' τ := by
  obtain ⟨rest, collected, together⟩ := inStep.collected
  rw [List.nil_append] at collected
  subst collected
  have current : σ'.battery.currentMA = τ.battery.currentMA := by
    rw [second.currentMA, first.currentMA, once.currentMA, together, List.map_append,
      List.sum_append, add_assoc]
  refine ⟨current, OrderedMap.ext fun k => ?_, OrderedSet.ext fun z => ?_, ?_, ?_⟩
  · rw [second.find?, first.find?, once.find?, together]
    by_cases later : ∃ y ∈ r'.eventVector, y.eventID = .setCurrentEnd ∧ y.sequenceNumber = k
    · obtain ⟨y, hy, ends⟩ := later
      rw [if_pos ⟨y, hy, ends⟩, if_pos ⟨y, List.mem_append_right _ hy, ends⟩]
    · rw [if_neg later]
      refine if_congr ⟨fun ⟨y, hy, ends⟩ => ⟨y, List.mem_append_left _ hy, ends⟩, ?_⟩ rfl rfl
      rintro ⟨y, hy, ends⟩
      exact ⟨y, (List.mem_append.mp hy).resolve_right fun hy => later ⟨y, hy, ends⟩, ends⟩
  · rw [second.mem, once.mem, inStep.iter]
    exact and_congr_left fun behind => (inStep.agree.events z behind).symm
  · rw [commanded, commanded']
    exact current
  · rw [second.sequenceNumber, once.sequenceNumber, inStep.sequenceNumber]

end Drain

/-- Without cancels, a thread that wakes up at one time and then at a later one ends in the state of
one that wakes up at the later time only. -/
theorem late_wakeUp (driver : Driver) (b : Battery) (n : ℕ)
    (no_cancel : ∀ z ∈ b.eventSet, z.eventID ≠ .cancelSetCurrentEvent)
    (stale : 0 < b.maxStaleness) {t₁ t₂ : ℤ} (le : t₁ ≤ t₂) :
    ∃ fuel σ₁ σ₂ σ, (EventThread.of b n).wakeUp driver t₁ fuel = .waits σ₁ ∧
      σ₁.wakeUp driver t₂ fuel = .waits σ₂ ∧
      (EventThread.of b n).wakeUp driver t₂ fuel = .waits σ ∧ SameState σ₂ σ := by
  have live : b.Live := .inr stale
  obtain ⟨r, hscan⟩ := scan_isSome t₁ driver n [] (.inl live)
    (fun x hx => (OrderedSet.begin_eq_some hx).1) (Nat.lt_succ_self _)
  obtain ⟨refreshed, walked, -⟩ := scan_walked hscan (walked_begin t₁ b)
  obtain ⟨fuel₁, σ₁, wakes₁, drained₁⟩ := exists_wakeUp_drained live no_cancel hscan
  have live₁ : σ₁.battery.Live := by rwa [Battery.Live, drained₁.refreshMode, drained₁.maxStaleness]
  have no_cancel₁ : ∀ z ∈ σ₁.battery.eventSet, z.eventID ≠ .cancelSetCurrentEvent :=
    fun z hz hid => no_cancel z
      ((refreshed.events z (by simp [hid])).mp ((drained₁.mem z).mp hz).1) hid
  obtain ⟨r', hscan'⟩ := scan_isSome t₂ driver r.sequenceNumber [] (.inl live₁)
    (fun x hx => (OrderedSet.begin_eq_some hx).1) (Nat.lt_succ_self _)
  obtain ⟨fuel₂, σ₂, wakes₂, drained₂⟩ := exists_wakeUp_drained live₁ no_cancel₁ hscan'
  have agree : AgreeFrom r.iter r.battery σ₁.battery :=
    ⟨drained₁.refreshMode.trans refreshed.refreshMode.symm,
      drained₁.maxStaleness.trans refreshed.maxStaleness.symm,
      fun z behind => (drained₁.mem z).trans (and_iff_left behind)⟩
  rw [drained₁.begin hscan] at hscan'
  obtain ⟨whole, together, inStep⟩ := scan_resume le live no_cancel
    (fun x hx => (OrderedSet.begin_eq_some hx).1) hscan agree hscan'
  obtain ⟨fuel, σ, wakes, drained⟩ := exists_wakeUp_drained live no_cancel together
  have between : σ₁ = EventThread.of σ₁.battery r.sequenceNumber :=
    drained₁.sequenceNumber ▸ EventThread.wakeUp_of wakes₁
  refine ⟨fuel₁ + fuel₂ + fuel, σ₁, σ₂, σ, ?_, ?_, ?_, drained₁.sameState drained₂ drained inStep
    (EventThread.wakeUp_of wakes₂) (EventThread.wakeUp_of wakes)⟩
  · exact EventThread.wakeUp_mono wakes₁ (by simp) (by omega)
  · rw [between]
    exact EventThread.wakeUp_mono wakes₂ (by simp) (by omega)
  · exact EventThread.wakeUp_mono wakes (by simp) (by omega)

def requested : Battery :=
  (aggregateBattery "g" 1000 .active 0 1).checkMergeAndInsertEvents "g" 100 10 2500 2

/-- Woken up in the middle of the request and after it, or after it only. -/
theorem late_wakeUp_requested :
    ∃ fuel σ₁ σ₂ σ, (EventThread.of requested 3).wakeUp .still 1500 fuel = .waits σ₁ ∧
      σ₁.wakeUp .still 5000 fuel = .waits σ₂ ∧
      (EventThread.of requested 3).wakeUp .still 5000 fuel = .waits σ ∧ SameState σ₂ σ :=
  late_wakeUp .still requested 3 (by decide +kernel) (by decide) (by decide)

end BatteryOS.V3
