import BatteryOS.V3.WakeUp

/-! Where the loop over the due events stops. After it the source reads `iter->eventID`, whether or
not `iter` has come to `eventSet.end()`. It stops on an element where something stays behind what is
due: an event that is due later, a cancel, or in ACTIVE mode the REFRESH that every REFRESH queues.
A LAZY battery queues none, so the last event of its queue takes the loop to the end. -/

namespace BatteryOS.V3

namespace Battery

/-- Something in the set stops the loop: an event that is not due, a cancel, or in ACTIVE mode a
REFRESH, which leads to another behind it. -/
def Remains (b : Battery) (now : ℤ) : Prop :=
  (∃ z ∈ b.eventSet, now < z.eventTime ∨ z.eventID = .cancelSetCurrentEvent) ∨
    b.refreshMode = .active ∧ 0 ≤ b.maxStaleness ∧ ∃ z ∈ b.eventSet, z.eventID = .refresh

instance (b : Battery) (now : ℤ) : Decidable (b.Remains now) :=
  inferInstanceAs (Decidable (_ ∨ _ ∧ _ ∧ _))

/-- After the loop `iter` refers to an element of the set. -/
def StopsOnElement (driver : Driver) (b : Battery) (sequenceNumber : ℕ) (now : ℤ) : Prop :=
  ∀ fuel r, scan driver now fuel b sequenceNumber [] b.eventSet.begin = some r →
    ∃ x ∈ r.battery.eventSet, r.iter = some x

theorem not_remains_iff {b : Battery} {now : ℤ} : ¬ b.Remains now ↔
    (∀ z ∈ b.eventSet, z.eventTime ≤ now ∧ z.eventID ≠ .cancelSetCurrentEvent) ∧
      (b.refreshMode = .active → 0 ≤ b.maxStaleness →
        ∀ z ∈ b.eventSet, z.eventID ≠ .refresh) := by
  simp only [Remains, not_or, not_exists, not_and, not_lt, ne_eq]

end Battery

section Scan

variable {driver : Driver} {now : ℤ} {fuel n : ℕ} {b : Battery} {eventVector : List Event}
  {iter : Option Event}

theorem scan_passed {r : Scan} (h : scan driver now fuel b n [] b.eventSet.begin = some r)
    {z : Event} (hz : z ∈ b.eventSet) (passed : Before z r.iter) : z ∈ r.eventVector := by
  refine (scan_invariant (I := fun s => (∀ x, s.iter = some x → x ∈ s.battery.eventSet) ∧
    z ∈ s.battery.eventSet ∧ (Before z s.iter → z ∈ s.eventVector)) ?_ ?_ h
    ⟨fun x hx => (OrderedSet.begin_eq_some hx).1, hz,
      fun before => absurd before (not_before_begin hz)⟩).1.2.2 passed
  -- `z` was passed before `x`, or is `x`, or is not passed yet
  all_goals
    have next {c c' : Battery} {eventVector : List Event} {x : Event} (hx : x ∈ c.eventSet)
        (hz : z ∈ c.eventSet) (hz' : z ∈ c'.eventSet)
        (collected : Before z (some x) → z ∈ eventVector)
        (before : Before z (c'.eventSet.next x)) : z ∈ eventVector ++ [x] := by
      rcases (key_le_of_before_next hz' before).lt_or_eq with earlier | same
      · exact List.mem_append_left _ (collected fun y hy => Option.some.inj hy ▸ earlier)
      · rw [OrderedSet.eq_of_key_eq hz hx same]
        exact List.mem_append_right _ (List.mem_singleton_self x)
  · rintro c n eventVector x ⟨member, hz, collected⟩ - - -
    exact ⟨fun y hy => (OrderedSet.next_eq_some hy).1, hz, next (member x rfl) hz hz collected⟩
  · rintro c n eventVector x ⟨member, hz, collected⟩ - hid
    have kept := (refreshAt_refreshed driver now c n hid).mono z hz
    exact ⟨fun y hy => (OrderedSet.next_eq_some hy).1, kept, next (member x rfl) hz kept collected⟩

def RefreshAhead (s : EventSet) (iter : Option Event) : Prop :=
  ∃ z ∈ s, z.eventID = .refresh ∧ ¬ Before z iter

theorem refreshAt_ahead (driver : Driver) (now : ℤ) (active : b.refreshMode = .active)
    (stale : 0 ≤ b.maxStaleness) (drawn : Drawn b.eventSet n) {x : Event} (hx : x ∈ b.eventSet)
    (hid : x.eventID = .refresh) :
    let next := (b.refreshAt driver now n x).1
    RefreshAhead next.eventSet (next.eventSet.next x) := by
  obtain ⟨inserted, -⟩ := refreshAt_fresh driver now active drawn hid
  exact ⟨_, inserted, hid, not_before_next inserted (key_lt_fresh stale drawn hx hid)⟩

theorem scan_ahead {r : Scan} (h : scan driver now fuel b n eventVector iter = some r)
    (active : b.refreshMode = .active) (stale : 0 ≤ b.maxStaleness)
    (drawn : Drawn b.eventSet n) (member : ∀ x, iter = some x → x ∈ b.eventSet)
    (ahead : RefreshAhead b.eventSet iter) : RefreshAhead r.battery.eventSet r.iter := by
  refine (scan_invariant (I := fun s => (s.battery.refreshMode = .active ∧
    0 ≤ s.battery.maxStaleness ∧ Drawn s.battery.eventSet s.sequenceNumber ∧
      ∀ x, s.iter = some x → x ∈ s.battery.eventSet) ∧ RefreshAhead s.battery.eventSet s.iter)
    ?_ ?_ h ⟨⟨active, stale, drawn, member⟩, ahead⟩).1.2
  · rintro c n eventVector x ⟨⟨active, stale, drawn, member⟩, z, hz, zid, unmet⟩ - no_refresh -
    have apart : x.key ≠ z.key := fun same => no_refresh ((Event.key_eq_iff.mp same).2.1.trans zid)
    exact ⟨⟨active, stale, drawn, fun y hy => (OrderedSet.next_eq_some hy).1⟩,
      z, hz, zid, not_before_next hz ((not_before_some.mp unmet).lt_of_ne apart)⟩
  · rintro c n eventVector x ⟨⟨active, stale, drawn, member⟩, -⟩ - hid
    have refreshed := refreshAt_refreshed driver now c n hid
    exact ⟨⟨refreshed.refreshMode.trans active, stale.trans_eq refreshed.maxStaleness.symm,
      refreshAt_drawn driver now x drawn, fun y hy => (OrderedSet.next_eq_some hy).1⟩,
      refreshAt_ahead driver now active stale drawn (member x rfl) hid⟩

theorem stopsOnElement_of_remains (kept : Kept (b, n)) (remains : b.Remains now) :
    b.StopsOnElement driver n now := by
  intro fuel r h
  obtain ⟨-, walked, -⟩ := scan_walked h (walked_begin now b)
  cases hiter : r.iter with
  | some x => exact ⟨x, walked.iter_mem x hiter, rfl⟩
  | none =>
      have passed : ∀ z, Before z r.iter := fun z x hx => by rw [hiter] at hx; cases hx
      rcases remains with ⟨z, hz, stops⟩ | ⟨active, stale, z, hz, zid⟩
      · have collected := scan_passed h hz (passed z)
        rcases stops with late | cancel
        · exact absurd (walked.due z collected) (not_le.mpr late)
        · exact absurd cancel (walked.no_cancel z collected)
      · obtain ⟨y, -, -, unmet⟩ := scan_ahead h active stale kept.drawn
          (fun x hx => (OrderedSet.begin_eq_some hx).1) ⟨z, hz, zid, not_before_begin hz⟩
        exact absurd (passed y) unmet

theorem refreshAt_not_remains (driver : Driver) (n : ℕ) (gone : ¬ b.Remains now) {x : Event}
    (hx : x ∈ b.eventSet) (hid : x.eventID = .refresh) :
    let next := (b.refreshAt driver now n x).1
    ¬ next.Remains now ∧ ∀ z ∈ next.eventSet, z ∈ b.eventSet ∨ z.key < x.key := by
  obtain ⟨stops, queues⟩ := Battery.not_remains_iff.mp gone
  unfold Battery.refreshAt
  split_ifs with active
  · have earlier : b.maxStaleness < 0 := not_le.mp fun stale => queues active stale x hx hid
    dsimp only
    refine ⟨Battery.not_remains_iff.mpr ⟨fun z hz => ?_, fun _ stale => ?_⟩, fun z hz => ?_⟩
    · rcases OrderedSet.mem_insert.mp hz with hz | ⟨rfl, -⟩
      · exact stops z hz
      · have due := (stops x hx).1
        exact ⟨by dsimp only; omega, by simp [hid]⟩
    · exact absurd stale (not_le.mpr earlier)
    · refine (OrderedSet.mem_insert.mp hz).imp_right fun fresh => ?_
      rw [fresh.1, Event.key_lt_iff]
      exact .inl (add_lt_of_neg_right _ earlier)
  · exact ⟨fun remains => gone remains, fun z => .inl⟩

open Classical in
noncomputable def unpassed (s : EventSet) (iter : Option Event) : Finset Event :=
  s.elems.toFinset.filter fun z => ¬ Before z iter

theorem mem_unpassed {s : EventSet} {z : Event} :
    z ∈ unpassed s iter ↔ z ∈ s ∧ ¬ Before z iter := by
  simp only [unpassed, Finset.mem_filter, List.mem_toFinset, OrderedSet.mem_def]

theorem unpassed_next {s t : EventSet} {x : Event} (hx : x ∈ s)
    (inserted : ∀ z ∈ t, z ∈ s ∨ z.key < x.key) : unpassed t (t.next x) ⊂ unpassed s (some x) := by
  refine ⟨fun z hz => ?_, fun sub => ?_⟩
  · obtain ⟨hz, unmet⟩ := mem_unpassed.mp hz
    have later := lt_of_not_before_next unmet
    exact mem_unpassed.mpr
      ⟨(inserted z hz).resolve_right later.asymm, not_before_some.mpr later.le⟩
  · have here := sub (mem_unpassed.mpr ⟨hx, not_before_some.mpr le_rfl⟩)
    exact lt_irrefl _ (lt_of_not_before_next (mem_unpassed.mp here).2)

theorem scan_reaches_end (driver : Driver) (gone : ¬ b.Remains now) (n : ℕ)
    (eventVector : List Event) (member : ∀ x, iter = some x → x ∈ b.eventSet) :
    ∃ fuel r, scan driver now fuel b n eventVector iter = some r ∧ r.iter = none := by
  obtain ⟨m, hm⟩ : ∃ m, (unpassed b.eventSet iter).card = m := ⟨_, rfl⟩
  induction m using Nat.strong_induction_on generalizing b n eventVector iter with
  | _ m ih =>
      cases iter with
      | none => exact ⟨1, _, rfl, rfl⟩
      | some x =>
          have hx := member x rfl
          obtain ⟨due, no_cancel⟩ := (Battery.not_remains_iff.mp gone).1 x hx
          have rest {c : Battery} (gone' : ¬ c.Remains now)
              (inserted : ∀ z ∈ c.eventSet, z ∈ b.eventSet ∨ z.key < x.key) (n' : ℕ) :
              ∃ fuel r, scan driver now fuel c n' (eventVector ++ [x]) (c.eventSet.next x) =
                some r ∧ r.iter = none :=
            ih _ (hm ▸ Finset.card_lt_card (unpassed_next hx inserted)) gone' n' _
              (fun y hy => (OrderedSet.next_eq_some hy).1) rfl
          cases hid : x.eventID with
          | setCurrentBegin | setCurrentEnd =>
              obtain ⟨fuel, r, ends⟩ := rest gone (fun z => .inl) n
              refine ⟨fuel + 1, r, ?_⟩
              simpa only [scan, if_neg (not_lt.mpr due), hid] using ends
          | cancelSetCurrentEvent => exact absurd hid no_cancel
          | refresh =>
              obtain ⟨gone', inserted⟩ := refreshAt_not_remains driver n gone hx hid
              obtain ⟨fuel, r, ends⟩ := rest gone' inserted (b.refreshAt driver now n x).2
              refine ⟨fuel + 1, r, ?_⟩
              simpa only [scan, if_neg (not_lt.mpr due), hid] using ends

theorem stopsOnElement_iff (kept : Kept (b, n)) :
    b.StopsOnElement driver n now ↔ b.Remains now := by
  refine ⟨fun stops => ?_, stopsOnElement_of_remains kept⟩
  by_contra gone
  obtain ⟨fuel, r, ends, atEnd⟩ := scan_reaches_end driver gone n []
    (fun x hx => (OrderedSet.begin_eq_some hx).1)
  obtain ⟨x, -, hx⟩ := stops fuel r ends
  rw [atEnd] at hx
  cases hx

end Scan

section Run

variable {driver : Driver} {b b' : Battery} {n n' : ℕ}

/-- The batteries that the directory makes under names of the caller's, and the manager of a
partition. -/
inductive Constructed : Battery × ℕ → Prop
  | named (construction : Construction) (batteryName : String) (maxStaleness : ℤ)
      (refreshMode : RefreshMode) (now : ℤ) (n : ℕ) :
      Constructed (construction.battery batteryName maxStaleness refreshMode now n)
  | manager (batteryName : String) (status : BatteryStatus) (now : ℤ) (n : ℕ) :
      Constructed (partitionManagerBattery batteryName status now n, n + 1)

theorem Constructed.kept {start : Battery × ℕ} (h : Constructed start) : Kept start := by
  cases h with
  | named construction batteryName maxStaleness refreshMode now n =>
      exact (construction.battery_chain batteryName maxStaleness refreshMode now n).1
  | manager batteryName status now n =>
      have like :=
        (Construction.aggregate.battery_chain batteryName 60000 .active (now + 60000) n).1
      exact ⟨like.typed.of_subset fun _ _ => id, like.drawn⟩

/-- A property of every wake-up: the thread leaves its waits with events in the set only. -/
def LifeAction.AtWakeUp (P : Battery → ℕ → ℤ → Prop) (σ : Battery × ℕ) : LifeAction → Prop
  | .batch _ now => σ.1.eventSet.elems ≠ [] → P σ.1 σ.2 now
  | .setRefreshMode _ _ | .schedule _ _ _ _ | .request _ | .insert _ | .refresh _ | .draw => True

instance (P : Battery → ℕ → ℤ → Prop) [∀ b n now, Decidable (P b n now)] (σ : Battery × ℕ) :
    DecidablePred (LifeAction.AtWakeUp P σ)
  | .batch _ _ => inferInstanceAs (Decidable (_ → _))
  | .setRefreshMode _ _ | .schedule _ _ _ _ | .request _ | .insert _ | .refresh _ | .draw =>
    .isTrue trivial

def Battery.Refreshing (b : Battery) : Prop :=
  b.refreshMode = .active → ∃ z ∈ b.eventSet, z.eventID = .refresh

theorem Battery.Refreshing.congr (h : b.Refreshing) (mode : b'.refreshMode = b.refreshMode)
    (same : ∀ z, z.eventID = .refresh → (z ∈ b'.eventSet ↔ z ∈ b.eventSet)) :
    b'.Refreshing := by
  intro active
  obtain ⟨z, hz, zid⟩ := h (mode.symm.trans active)
  exact ⟨z, (same z zid).mpr hz, zid⟩

theorem Battery.RefreshChain.refreshing (h : b.RefreshChain) : b.Refreshing := by
  intro active
  unfold Battery.RefreshChain at h
  rw [active] at h
  obtain ⟨z, ⟨hz, zid⟩, -⟩ := h
  exact ⟨z, hz, zid⟩

theorem runEventThread_refreshing {now : ℤ} {fuel : ℕ} {commanded : Option ℤ} (kept : Kept (b, n))
    (h : b.Refreshing) (done : b.runEventThread driver fuel n now = .done b' n' commanded) :
    b'.Refreshing := by
  intro active'
  obtain ⟨s, hscan, -, -, mode, -, refreshes⟩ := runEventThread_refreshes kept.typed done
  have active := mode.symm.trans active'
  obtain ⟨z, hz, zid⟩ := h active
  obtain ⟨y, ⟨⟨hy, yid⟩, unmet⟩, -⟩ := scan_unmet (P := fun _ => True) hscan active
    (walked_begin now b) kept.drawn (fun _ _ _ _ => trivial)
    ⟨z, ⟨⟨hz, zid⟩, List.not_mem_nil⟩, trivial⟩
  exact ⟨y, (refreshes y yid).mpr ⟨hy, unmet⟩, yid⟩

theorem Battery.Refreshing.insertEvents (h : b.Refreshing) (typed : b.Typed) (r : Request) :
    (b.checkMergeAndInsertEvents r.name r.currentMA r.startTime r.endTime
      r.sequenceNumber).Refreshing :=
  h.congr rfl fun _ zid => typed.mem_insertEvents _ _ _ _ _ zid

theorem Battery.Refreshing.request (h : b.Refreshing) (typed : b.Typed) (r : Request) :
    (b.request r).Refreshing := by
  by_cases refuses : b.Refuses r
  · rwa [Battery.request_of_refuses refuses]
  · rw [Battery.request_of_accepts refuses]
    exact h.insertEvents typed r

theorem setRefreshMode_refreshing (driver : Driver) (now : ℤ) (refreshMode : RefreshMode)
    (kept : Kept (b, n)) (h : b.Refreshing) :
    (b.setRefreshMode driver now n refreshMode).1.Refreshing := by
  by_cases same : b.refreshMode = refreshMode
  · rwa [Battery.setRefreshMode, if_pos same]
  cases refreshMode with
  | lazy =>
      rw [Battery.setRefreshMode, if_neg same, if_neg (by simp)]
      exact fun active => by cases active
  | active =>
      have mode : b.refreshMode = .lazy := by
        cases h : b.refreshMode with
        | lazy => rfl
        | active => exact absurd h same
      obtain ⟨-, -, -, fresh, freshID, -, -, mem⟩ :=
        mem_setRefreshMode_active driver now kept mode
      exact fun _ => ⟨fresh, (mem fresh freshID).mpr (.inr rfl), freshID⟩

theorem LifeAction.step_refreshing {action : LifeAction} (kept : Kept (b, n)) (h : b.Refreshing)
    (step : action.step driver (b, n) = some (b', n')) : b'.Refreshing := by
  cases action with
  | setRefreshMode now refreshMode =>
      have result : b.setRefreshMode driver now n refreshMode = (b', n') := Option.some.inj step
      have next := setRefreshMode_refreshing driver now refreshMode kept h
      rwa [result] at next
  | schedule now currentMA startTime endTime =>
      obtain ⟨rfl, -⟩ := Prod.mk_inj.mp (Option.some.inj step)
      exact h.request kept.typed _
  | request r =>
      obtain ⟨rfl, -⟩ := Prod.mk_inj.mp (Option.some.inj step)
      exact h.request kept.typed r
  | insert r =>
      obtain ⟨rfl, -⟩ := Prod.mk_inj.mp (Option.some.inj step)
      exact h.insertEvents kept.typed r
  | refresh status =>
      obtain ⟨rfl, -⟩ := Prod.mk_inj.mp (Option.some.inj step)
      exact h
  | batch fuel now =>
      obtain ⟨commanded, done⟩ := batch_step step
      exact runEventThread_refreshing kept h done
  | draw =>
      obtain ⟨rfl, -⟩ := Prod.mk_inj.mp (Option.some.inj step)
      exact h

/-- A battery that was not a physical one constructed ACTIVE has a REFRESH queued in every state in
ACTIVE mode, so that with a staleness of zero or more no loop comes to the end of the set. -/
theorem active_stopsOnElement {construction : Construction} {batteryName : String}
    {maxStaleness : ℤ} {refreshMode : RefreshMode} {now : ℤ} {actions : List LifeAction}
    {σ : Battery × ℕ} (queued : ¬ (construction = .physical ∧ refreshMode = .active))
    (stale : 0 ≤ maxStaleness)
    (run : StepRun.exec (LifeAction.step driver)
      (construction.battery batteryName maxStaleness refreshMode now n) actions = some σ)
    (active : σ.1.refreshMode = .active) (wake : ℤ) : σ.1.StopsOnElement driver σ.2 wake := by
  obtain ⟨start, chain⟩ := construction.battery_chain batteryName maxStaleness refreshMode now n
  obtain ⟨kept, refreshing, staleness⟩ : Kept σ ∧ σ.1.Refreshing ∧
      σ.1.maxStaleness = maxStaleness := by
    refine StepRun.exec_kept (Q := fun σ => Kept σ ∧ σ.1.Refreshing ∧
      σ.1.maxStaleness = maxStaleness)
      ⟨start, (chain.mpr queued).refreshing, construction.battery_maxStaleness ..⟩
      (fun s action s' h hstep => ?_) run
    exact ⟨(LifeAction.step_chain h.1 hstep).1, LifeAction.step_refreshing h.1 h.2.1 hstep,
      (LifeAction.step_maxStaleness h.1.typed hstep).trans h.2.2⟩
  exact stopsOnElement_of_remains kept
    (.inr ⟨active, staleness ▸ stale, refreshing active⟩)

/-- The loop stops on an element at all wake-ups of exactly the runs at whose wake-ups something
remains. -/
theorem scan_stops_iff (driver : Driver) {start : Battery × ℕ} (constructed : Constructed start)
    (actions : List LifeAction) :
    StepRun.Along (LifeAction.step driver)
        (LifeAction.AtWakeUp fun b n now => b.StopsOnElement driver n now) start actions ↔
      StepRun.Along (LifeAction.step driver)
        (LifeAction.AtWakeUp fun b _ now => b.Remains now) start actions := by
  refine StepRun.along_congr (I := Kept) constructed.kept
    (fun σ action σ' kept step => (LifeAction.step_chain kept step).1) fun σ action kept => ?_
  cases action with
  | batch fuel now => exact forall_congr' fun _ => stopsOnElement_iff kept
  | setRefreshMode now refreshMode => exact Iff.rfl
  | schedule now currentMA startTime endTime => exact Iff.rfl
  | request r => exact Iff.rfl
  | insert r => exact Iff.rfl
  | refresh status => exact Iff.rfl
  | draw => exact Iff.rfl

/-- An ACTIVE aggregate begins a request, with the REFRESH of its constructor due as well. -/
theorem scan_stops_aggregate :
    StepRun.Along (LifeAction.step .still)
      (LifeAction.AtWakeUp fun b n now => b.StopsOnElement .still n now)
      (Construction.aggregate.battery "g" 1000 .active 0 1)
      [.schedule 0 0 1000 2000, .batch 9 1000] := by
  refine (scan_stops_iff .still (.named .aggregate "g" 1000 .active 0 1) _).mpr ?_
  refine StepRun.along_cons.mpr ⟨trivial, fun s hs => ?_⟩
  obtain rfl := Option.some.inj hs
  exact StepRun.along_cons.mpr ⟨fun _ => by decide +kernel, fun _ _ => StepRun.along_nil⟩

/-- The first wake-up of a LAZY aggregate meets the REFRESH of its constructor and nothing after
it; a LAZY partition comes to the end at the END of its only request. -/
theorem scan_stops_fails :
    ¬ StepRun.Along (LifeAction.step .still)
        (LifeAction.AtWakeUp fun b n now => b.StopsOnElement .still n now)
        (Construction.aggregate.battery "g" 1000 .lazy 0 1) [.batch 9 0] ∧
      ¬ StepRun.Along (LifeAction.step .still)
        (LifeAction.AtWakeUp fun b n now => b.StopsOnElement .still n now)
        ((Construction.partition .zero).battery "p" 1000 .lazy 0 1)
        [.insert ⟨0, 100, 10, 20, "p", 1⟩, .batch 9 10, .batch 9 20] := by
  constructor
  · intro along
    have stops := along [] (.batch 9 0) (List.prefix_refl _) _ rfl (by decide)
    obtain ⟨x, -, hx⟩ := stops 9 _ rfl
    cases hx
  · intro along
    have stops := along [.insert ⟨0, 100, 10, 20, "p", 1⟩, .batch 9 10] (.batch 9 20)
      (List.prefix_refl _) _ rfl (by decide)
    obtain ⟨x, -, hx⟩ := stops 9 _ rfl
    cases hx

end Run

end BatteryOS.V3
