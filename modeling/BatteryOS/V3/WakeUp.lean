import BatteryOS.V3.Progress
import BatteryOS.V3.RefreshChain

/-! The event thread from one wait to the next. Woken up, it runs batches until nothing is due, and
only then gives the lock back. A staleness comes from a message and is not checked: where the next
refresh is not later than the last, a battery in ACTIVE mode keeps the thread, and with it the
lock, for ever. All batches of a wake-up run on one clock reading. -/

namespace BatteryOS.V3

/-- `std::chrono::milliseconds` of the field `max_staleness`, an `int64_t` of a `uint64_t`; a
second where the field is not set. -/
def parseStaleness : Option (BitVec 64) → ℤ
  | some maxStaleness => maxStaleness.toInt
  | none => 1000

/-- Where the outer loop of `runEventThread` waits: for an event, or until the first is due. -/
def Battery.Waits (b : Battery) (now : ℤ) : Prop :=
  ∀ iter, b.eventSet.begin = some iter → now < iter.eventTime

instance (b : Battery) (now : ℤ) : Decidable (b.Waits now) :=
  match h : b.eventSet.begin with
  | none => .isTrue fun _ hx => by rw [h] at hx; cases hx
  | some x => decidable_of_iff (now < x.eventTime) (by simp [Battery.Waits, h])

/-- The thread between two batches: its battery, the next sequence number and the current last
passed to `set_current`, 0 before the first. -/
structure EventThread where
  battery : Battery
  sequenceNumber : ℕ
  lastCommanded : ℤ

inductive WakeUp
  | running
  | outOfRange
  | waits (thread : EventThread)

/-- The outer loop of `runEventThread` at a wake-up time. -/
def EventThread.wakeUp (driver : Driver) (now : ℤ) : ℕ → EventThread → WakeUp
  | 0, _ => .running
  | fuel + 1, σ =>
    if σ.battery.Waits now then .waits σ
    else match σ.battery.runEventThread driver fuel σ.sequenceNumber now with
      | .running => .running
      | .outOfRange => .outOfRange
      | .done b n commanded => wakeUp driver now fuel ⟨b, n, commanded.getD σ.lastCommanded⟩

theorem Battery.waits_iff {b : Battery} {now : ℤ} :
    b.Waits now ↔ ∀ z ∈ b.eventSet, now < z.eventTime := by
  constructor
  · intro waits z hz
    cases hbegin : b.eventSet.begin with
    | none => exact absurd hz (OrderedSet.begin_eq_none.mp hbegin z)
    | some x =>
        have first := (OrderedSet.begin_eq_some hbegin).2 z hz
        exact (waits x hbegin).trans_le (Event.eventTime_le_of_key_le first)
  · exact fun later x hbegin => later x (OrderedSet.begin_eq_some hbegin).1

section Fuel

variable {driver : Driver} {now : ℤ} {fuel fuel' n : ℕ}

theorem scan_mono {b : Battery} {eventVector : List Event} {iter : Option Event} {r : Scan}
    (h : scan driver now fuel b n eventVector iter = some r) (le : fuel ≤ fuel') :
    scan driver now fuel' b n eventVector iter = some r := by
  induction fuel generalizing fuel' b n eventVector iter with
  | zero => simp [scan] at h
  | succ fuel ih =>
      obtain ⟨fuel', rfl⟩ : ∃ more, fuel' = more + 1 := ⟨fuel' - 1, by omega⟩
      have le' : fuel ≤ fuel' := Nat.le_of_succ_le_succ le
      cases iter with
      | none => exact h
      | some x =>
          rw [scan] at h ⊢
          split_ifs at h ⊢ with hdue
          · exact h
          cases hid : x.eventID with
          | setCurrentBegin | setCurrentEnd =>
              simp only [hid] at h ⊢
              exact ih h le'
          | cancelSetCurrentEvent =>
              simp only [hid] at h ⊢
              exact h
          | refresh =>
              simp only [hid] at h ⊢
              exact ih h le'

theorem runEventThread_mono {b : Battery} {batch : Batch}
    (h : b.runEventThread driver fuel n now = batch) (ends : batch ≠ .running)
    (le : fuel ≤ fuel') : b.runEventThread driver fuel' n now = batch := by
  rw [Battery.runEventThread] at h ⊢
  cases hscan : scan driver now fuel b n [] b.eventSet.begin with
  | none =>
      rw [hscan] at h
      exact absurd h.symm ends
  | some r => rwa [scan_mono hscan le, ← hscan]

namespace EventThread

theorem wakeUp_mono {σ : EventThread} {outcome : WakeUp} (h : σ.wakeUp driver now fuel = outcome)
    (ends : outcome ≠ .running) (le : fuel ≤ fuel') : σ.wakeUp driver now fuel' = outcome := by
  induction fuel generalizing σ fuel' with
  | zero => exact absurd h.symm ends
  | succ fuel ih =>
      obtain ⟨fuel', rfl⟩ : ∃ more, fuel' = more + 1 := ⟨fuel' - 1, by omega⟩
      have le' : fuel ≤ fuel' := Nat.le_of_succ_le_succ le
      rw [wakeUp] at h ⊢
      split_ifs at h ⊢ with waits
      · exact h
      cases hbatch : σ.battery.runEventThread driver fuel σ.sequenceNumber now with
      | running =>
          rw [hbatch] at h
          exact absurd h.symm ends
      | outOfRange =>
          rw [hbatch] at h
          rw [runEventThread_mono hbatch (by simp) le']
          exact h
      | done b n commanded =>
          rw [hbatch] at h
          rw [runEventThread_mono hbatch (by simp) le']
          exact ih h le'

theorem wakeUp_of_waits {σ : EventThread} (waits : σ.battery.Waits now) (fuel : ℕ) :
    σ.wakeUp driver now (fuel + 1) = .waits σ := if_pos waits

theorem exists_wakeUp_of_batch {σ : EventThread} {outcome : WakeUp} {b : Battery}
    {commanded : Option ℤ} (busy : ¬ σ.battery.Waits now)
    (batch : σ.battery.runEventThread driver fuel σ.sequenceNumber now = .done b n commanded)
    (rest : wakeUp driver now fuel' ⟨b, n, commanded.getD σ.lastCommanded⟩ = outcome)
    (ends : outcome ≠ .running) : ∃ fuel, σ.wakeUp driver now fuel = outcome := by
  refine ⟨max fuel fuel' + 1, ?_⟩
  rw [wakeUp, if_neg busy, runEventThread_mono batch (by simp) (le_max_left ..)]
  exact wakeUp_mono rest ends (le_max_right ..)

end EventThread

end Fuel

section Batch

variable {driver : Driver} {now : ℤ} {fuel n n' : ℕ} {b b' : Battery} {eventVector : List Event}
  {iter : Option Event} {commanded : Option ℤ}

/-- A scan that leaves nothing behind, not even the refreshes that it inserts. -/
structure Swept (now : ℤ) (b : Battery) (eventVector : List Event) (iter : Option Event) :
    Prop where
  steady : b.Steady now
  all : ∀ z ∈ b.eventSet, Before z iter → z ∈ eventVector

theorem swept_begin (steady : b.Steady now) : Swept now b [] b.eventSet.begin where
  steady := steady
  all _ hz hbefore := absurd hbefore (not_before_begin hz)

theorem Swept.next {x : Event} (h : Swept now b eventVector (some x)) (hx : x ∈ b.eventSet)
    (steady : b'.Steady now) (later : ∀ z ∈ b'.eventSet, z ∈ b.eventSet ∨ x.key < z.key) :
    Swept now b' (eventVector ++ [x]) (b'.eventSet.next x) where
  steady := steady
  all z hz hbefore := by
    have hle := key_le_of_before_next hz hbefore
    have old := (later z hz).resolve_right (not_lt.mpr hle)
    rcases hle.lt_or_eq with hlt | heq
    · exact List.mem_append_left _ (h.all z old fun y hy => Option.some.inj hy ▸ hlt)
    · exact List.mem_append_right _ (List.mem_singleton.mpr (OrderedSet.eq_of_key_eq old hx heq))

theorem refreshAt_later (driver : Driver) (now : ℤ) (n : ℕ) (live : b.Live) {x z : Event}
    (hz : z ∈ (b.refreshAt driver now n x).1.eventSet) : z ∈ b.eventSet ∨ x.key < z.key := by
  unfold Battery.refreshAt at hz
  split_ifs at hz with active
  · have stale : 0 < b.maxStaleness := live.resolve_left (by simp [active])
    refine (OrderedSet.mem_insert.mp hz).imp_right fun fresh => ?_
    rw [fresh.1, Event.key_lt_iff]
    exact .inl (lt_add_of_pos_right _ stale)
  · exact .inl hz

theorem scan_swept {r : Scan} (h : scan driver now fuel b n eventVector iter = some r)
    (hiter : ∀ x, iter = some x → x ∈ b.eventSet) (swept : Swept now b eventVector iter) :
    Swept now r.battery r.eventVector r.iter := by
  refine (scan_invariant (I := fun s => (∀ x, s.iter = some x → x ∈ s.battery.eventSet) ∧
    Swept now s.battery s.eventVector s.iter) ?_ ?_ h ⟨hiter, swept⟩).1.2
  · rintro c n eventVector x ⟨hiter, swept⟩ - - -
    exact ⟨fun y hy => (OrderedSet.next_eq_some hy).1,
      swept.next (hiter x rfl) swept.steady fun z => .inl⟩
  · rintro c n eventVector x ⟨hiter, swept⟩ due hid
    have hx := hiter x rfl
    have live := swept.steady.live hx hid due
    have live' := (refreshAt_refreshed driver now c n hid).live live
    exact ⟨fun y hy => (OrderedSet.next_eq_some hy).1,
      swept.next hx (.inl live') fun z => refreshAt_later driver now n live⟩

theorem mem_batch {s : Scan} {c : Battery} (hcancel : s.battery.cancel s.iter = some c)
    (happly : (b', commanded) = c.applyEvents driver s.eventVector) {z : Event}
    (hz : z ∈ b'.eventSet) : z ∈ s.battery.eventSet ∧ (∀ y ∈ s.eventVector, z.key ≠ y.key) ∧
      ∀ x, s.iter = some x → x.eventID = .cancelSetCurrentEvent → z.key ≠ x.key := by
  have applied : z ∈ c.eventSet ∧ ∀ y ∈ s.eventVector, z.key ≠ y.key := by
    by_cases empty : c.eventSet.elems = []
    · rw [Battery.applyEvents_of_empty driver empty] at happly
      obtain rfl := (Prod.ext_iff.mp happly).1
      rw [OrderedSet.mem_def, empty] at hz
      cases hz
    · obtain ⟨status, _, result, -⟩ := Battery.applyEvents_of_nonempty driver empty s.eventVector
      rw [result] at happly
      obtain rfl := (Prod.ext_iff.mp happly).1
      exact (Battery.mem_foldl_applyEvent s.eventVector c z).mp hz
  obtain ⟨kept, apart⟩ := applied
  rcases Battery.cancel_eq_some hcancel with ⟨rfl, none⟩ | ⟨x, pair, hx, -, -, rfl⟩
  · exact ⟨kept, apart, fun x hx xid => absurd xid (none x hx)⟩
  · simp only [OrderedSet.mem_erase] at kept
    exact ⟨kept.1.1.1, apart, fun y hy _ => Option.some.inj (hx.symm.trans hy) ▸ kept.2⟩

theorem waits_or_fewer_cancels (steady : b.Steady now)
    (h : b.runEventThread driver fuel n now = .done b' n' commanded) :
    b'.Waits now ∨ b'.cancels ⊂ b.cancels := by
  obtain ⟨s, c, hscan, hcancel, -, happly⟩ := Battery.runEventThread_eq_done h
  obtain ⟨refreshed, walked, stopped⟩ := scan_walked hscan (walked_begin now b)
  have swept := scan_swept hscan (fun x hx => (OrderedSet.begin_eq_some hx).1)
    (swept_begin steady)
  have left := fun z => mem_batch hcancel happly (z := z)
  by_cases cancels : ∃ x, s.iter = some x ∧ x.eventID = .cancelSetCurrentEvent
  · obtain ⟨x, hx, xid⟩ := cancels
    refine .inr ⟨fun z hz => ?_, fun sub => ?_⟩
    · obtain ⟨hz, zid⟩ := Battery.mem_cancels.mp hz
      exact Battery.mem_cancels.mpr ⟨(refreshed.events z (by simp [zid])).mp (left z hz).1, zid⟩
    · have here := (refreshed.events x (by simp [xid])).mp (walked.iter_mem x hx)
      have kept := (Battery.mem_cancels.mp (sub (Battery.mem_cancels.mpr ⟨here, xid⟩))).1
      exact (left x kept).2.2 x hx xid rfl
  · refine .inl (Battery.waits_iff.mpr fun z hz => ?_)
    obtain ⟨there, apart, -⟩ := left z hz
    by_contra due
    have unmet : z ∉ s.eventVector := fun met => apart z met rfl
    refine unmet (swept.all z there fun x hx => not_le.mp fun hle => due ?_)
    have late := (stopped x hx).resolve_right fun xid => cancels ⟨x, hx, xid⟩
    exact late.trans_le (Event.eventTime_le_of_key_le hle)

theorem runEventThread_steady (typed : b.Typed) (steady : b.Steady now)
    (h : b.runEventThread driver fuel n now = .done b' n' commanded) : b'.Steady now := by
  obtain ⟨s, hscan, -, -, mode, staleness, refreshes⟩ := runEventThread_refreshes typed h
  have swept := scan_swept hscan (fun x hx => (OrderedSet.begin_eq_some hx).1)
    (swept_begin steady)
  have same := (scan_walked hscan (walked_begin now b)).1
  refine swept.steady.imp (fun live => ?_) fun later z hz hid => ?_
  · rwa [Battery.Live, mode, staleness, ← same.refreshMode, ← same.maxStaleness]
  · exact later z ((refreshes z hid).mp hz).1 hid

theorem refreshAt_fresh (driver : Driver) (now : ℤ) (active : b.refreshMode = .active)
    (drawn : Drawn b.eventSet n) {x : Event} (hid : x.eventID = .refresh) :
    let fresh : Event := { x with eventTime := x.eventTime + b.maxStaleness, sequenceNumber := n }
    fresh ∈ (b.refreshAt driver now n x).1.eventSet ∧ fresh ∉ b.eventSet := by
  intro fresh
  have freshID : fresh.eventID = .refresh := hid
  have new : ∀ y ∈ b.eventSet, y.key ≠ fresh.key := fun y hy same => by
    obtain ⟨-, yid, number⟩ := Event.key_eq_iff.mp same
    exact (drawn y hy (yid.trans freshID)).ne number
  refine ⟨?_, fun old => new fresh old rfl⟩
  rw [Battery.refreshAt, if_pos active]
  exact OrderedSet.mem_insert.mpr (.inr ⟨rfl, new⟩)

def Pending (now : ℤ) (b : Battery) (eventVector : List Event) : Prop :=
  ∃ z, Outstanding b.eventSet eventVector z ∧ z.eventTime ≤ now

theorem Outstanding.next {x z : Event} (h : Outstanding b.eventSet eventVector z) (ne : z ≠ x)
    (refreshed : Refreshed b b') : Outstanding b'.eventSet (eventVector ++ [x]) z := by
  obtain ⟨⟨hz, zid⟩, unmet⟩ := h
  refine ⟨⟨refreshed.mono z hz, zid⟩, fun met => ?_⟩
  rcases List.mem_append.mp met with met | met
  · exact unmet met
  · exact ne (List.mem_singleton.mp met)

theorem scan_unmet {P : Event → Prop} {r : Scan}
    (h : scan driver now fuel b n eventVector iter = some r) (active : b.refreshMode = .active)
    (walked : Walked now b eventVector iter) (drawn : Drawn b.eventSet n)
    (next : ∀ (x : Event) (k : ℕ), x.eventTime ≤ now → P x →
      P { x with eventTime := x.eventTime + b.maxStaleness, sequenceNumber := k })
    (unmet : ∃ z, Outstanding b.eventSet eventVector z ∧ P z) :
    ∃ z, Outstanding r.battery.eventSet r.eventVector z ∧ P z := by
  refine (scan_invariant (I := fun s => (s.battery.refreshMode = .active ∧
    s.battery.maxStaleness = b.maxStaleness ∧ Walked now s.battery s.eventVector s.iter ∧
      Drawn s.battery.eventSet s.sequenceNumber) ∧
        ∃ z, Outstanding s.battery.eventSet s.eventVector z ∧ P z)
    ?_ ?_ h ⟨⟨active, rfl, walked, drawn⟩, unmet⟩).1.2
  · rintro c n eventVector x ⟨⟨active, staleness, walked, drawn⟩, z, outstanding, hz⟩ due
      no_refresh no_cancel
    have ne : z ≠ x := fun same => no_refresh (same ▸ outstanding.1.2)
    exact ⟨⟨active, staleness, walked.next (.refl c) due no_cancel, drawn⟩,
      z, outstanding.next ne (.refl c), hz⟩
  · rintro c n eventVector x ⟨⟨active, staleness, walked, drawn⟩, z, outstanding, hz⟩ due hid
    have refreshed := refreshAt_refreshed driver now c n hid
    refine ⟨⟨refreshed.refreshMode.trans active, refreshed.maxStaleness.trans staleness,
      walked.next refreshed due (by simp [hid]), refreshAt_drawn driver now x drawn⟩, ?_⟩
    by_cases same : z = x
    · obtain ⟨inserted, new⟩ := refreshAt_fresh driver now active drawn hid
      refine ⟨_, ⟨⟨inserted, hid⟩, fun met => new ?_⟩, staleness ▸ next x n due (same ▸ hz)⟩
      rcases List.mem_append.mp met with met | met
      · exact walked.member _ met
      · rw [List.mem_singleton.mp met]
        exact walked.iter_mem x rfl
    · exact ⟨z, outstanding.next same refreshed, hz⟩

theorem scan_outstanding {r : Scan} (h : scan driver now fuel b n eventVector iter = some r)
    (active : b.refreshMode = .active) (stale : b.maxStaleness ≤ 0)
    (walked : Walked now b eventVector iter) (drawn : Drawn b.eventSet n)
    (pending : Pending now b eventVector) : Pending now r.battery r.eventVector :=
  scan_unmet h active walked drawn
    (fun _ _ due _ => (add_le_of_nonpos_right stale).trans due) pending

theorem key_lt_fresh (stale : 0 ≤ b.maxStaleness) (drawn : Drawn b.eventSet n) {x : Event}
    (hx : x ∈ b.eventSet) (hid : x.eventID = .refresh) :
    x.key < Event.key { x with eventTime := x.eventTime + b.maxStaleness, sequenceNumber := n } := by
  rw [Event.key_lt_iff]
  rcases stale.lt_or_eq with later | zero
  · exact .inl (lt_add_of_pos_right _ later)
  · exact .inr ⟨by simp [← zero], .inr ⟨rfl, drawn x hx hid⟩⟩

def DueAhead (now : ℤ) (s : EventSet) (iter : Option Event) : Prop :=
  ∃ z ∈ s, (z.eventID = .refresh ∧ z.eventTime ≤ now) ∧ ¬ Before z iter ∧
    ∀ y ∈ s, y.eventID = .cancelSetCurrentEvent → ¬ Before y iter → z.key < y.key

/-- A cancel after a REFRESH is later in time, and so behind what that inserts at its own time. -/
theorem refreshAt_dueAhead (driver : Driver) (active : b.refreshMode = .active)
    (zero : b.maxStaleness = 0) (drawn : Drawn b.eventSet n) {x : Event} (hx : x ∈ b.eventSet)
    (hid : x.eventID = .refresh) (due : x.eventTime ≤ now) :
    let next := (b.refreshAt driver now n x).1
    DueAhead now next.eventSet (next.eventSet.next x) := by
  obtain ⟨inserted, -⟩ := refreshAt_fresh driver now active drawn hid
  have behind := key_lt_fresh zero.ge drawn hx hid
  refine ⟨_, inserted, ⟨hid, by simp [zero, due]⟩, not_before_next inserted behind,
    fun y _ yid unmet => ?_⟩
  have later := lt_of_not_before_next unmet
  rw [Event.key_lt_iff] at later ⊢
  rcases later with later | ⟨-, higher | ⟨same, -⟩⟩
  · exact .inl (by simpa [zero] using later)
  · simp [hid, yid, EventID.toInt] at higher
  · simp [hid, yid] at same

theorem scan_dueAhead {r : Scan} (h : scan driver now fuel b n eventVector iter = some r)
    (active : b.refreshMode = .active) (zero : b.maxStaleness = 0) (drawn : Drawn b.eventSet n)
    (member : ∀ x, iter = some x → x ∈ b.eventSet) (ahead : DueAhead now b.eventSet iter) :
    DueAhead now r.battery.eventSet r.iter := by
  refine (scan_invariant (I := fun s => (s.battery.refreshMode = .active ∧
    s.battery.maxStaleness = 0 ∧ Drawn s.battery.eventSet s.sequenceNumber ∧
      ∀ x, s.iter = some x → x ∈ s.battery.eventSet) ∧ DueAhead now s.battery.eventSet s.iter)
    ?_ ?_ h ⟨⟨active, zero, drawn, member⟩, ahead⟩).1.2
  · rintro c n eventVector x ⟨⟨active, zero, drawn, -⟩, z, hz, ⟨zid, zdue⟩, unmet, first⟩ -
      no_refresh -
    have apart : x.key ≠ z.key := fun same => no_refresh ((Event.key_eq_iff.mp same).2.1.trans zid)
    refine ⟨⟨active, zero, drawn, fun y hy => (OrderedSet.next_eq_some hy).1⟩, z, hz, ⟨zid, zdue⟩,
      not_before_next hz ((not_before_some.mp unmet).lt_of_ne apart), fun y hy yid later => ?_⟩
    exact first y hy yid (not_before_some.mpr (lt_of_not_before_next later).le)
  · rintro c n eventVector x ⟨⟨active, zero, drawn, member⟩, -⟩ due hid
    have refreshed := refreshAt_refreshed driver now c n hid
    exact ⟨⟨refreshed.refreshMode.trans active, refreshed.maxStaleness.trans zero,
      refreshAt_drawn driver now x drawn, fun y hy => (OrderedSet.next_eq_some hy).1⟩,
      refreshAt_dueAhead driver active zero drawn (member x rfl) hid due⟩

/-- With a staleness of zero every refresh that is due leads to another one after it in the set,
and a scan that reaches one before a cancel does not end. -/
theorem scan_eq_none (driver : Driver) (active : b.refreshMode = .active)
    (zero : b.maxStaleness = 0) (drawn : Drawn b.eventSet n)
    (ahead : DueAhead now b.eventSet b.eventSet.begin) :
    scan driver now fuel b n [] b.eventSet.begin = none := by
  by_contra ends
  obtain ⟨r, h⟩ := Option.ne_none_iff_exists'.mp ends
  obtain ⟨-, walked, stopped⟩ := scan_walked h (walked_begin now b)
  obtain ⟨z, -, ⟨-, zdue⟩, unmet, first⟩ := scan_dueAhead h active zero drawn
    (fun x hx => (OrderedSet.begin_eq_some hx).1) ahead
  cases hiter : r.iter with
  | none => exact unmet fun x hx => by rw [hiter] at hx; cases hx
  | some x =>
      rw [hiter, not_before_some] at unmet
      rcases stopped x hiter with late | cancel
      · exact absurd (late.trans_le (Event.eventTime_le_of_key_le unmet)) (not_lt.mpr zdue)
      · have here : ¬ Before x r.iter := by rw [hiter, not_before_some]
        exact absurd (first x (walked.iter_mem x hiter) cancel here) (not_lt.mpr unmet)

theorem not_steady_iff : ¬ b.Steady now ↔ (b.refreshMode = .active ∧ b.maxStaleness ≤ 0) ∧
    ∃ z ∈ b.eventSet, z.eventID = .refresh ∧ z.eventTime ≤ now := by
  have active : ¬ b.refreshMode = .lazy ↔ b.refreshMode = .active := by
    cases b.refreshMode <;> simp
  simp only [Battery.Steady, Battery.Live, not_or, active, not_lt, not_forall, exists_prop]

theorem runEventThread_not_steady (kept : Kept (b, n)) (unsteady : ¬ b.Steady now)
    (h : b.runEventThread driver fuel n now = .done b' n' commanded) :
    Kept (b', n') ∧ ¬ b'.Steady now := by
  obtain ⟨⟨active, stale⟩, x, hx, xid, xdue⟩ := not_steady_iff.mp unsteady
  obtain ⟨s, hscan, rfl, typed, mode, staleness, refreshes⟩ := runEventThread_refreshes kept.typed h
  obtain ⟨z, ⟨⟨hz, zid⟩, unmet⟩, zdue⟩ := scan_outstanding hscan active stale (walked_begin now b)
    kept.drawn ⟨x, ⟨⟨hx, xid⟩, List.not_mem_nil⟩, xdue⟩
  refine ⟨⟨typed, fun y hy yid => ?_⟩, not_steady_iff.mpr ⟨⟨mode.trans active, ?_⟩, z,
    (refreshes z zid).mpr ⟨hz, unmet⟩, zid, zdue⟩⟩
  · exact scan_drawn hscan kept.drawn y ((refreshes y yid).mp hy).1 yid
  · exact staleness.trans_le stale

end Batch

namespace EventThread

variable {driver : Driver} {now : ℤ} {σ : EventThread}

/-- From a steady battery every wake-up ends: the thread waits again, or `eventMap.at` has thrown. -/
theorem exists_wakeUp (driver : Driver) (typed : σ.battery.Typed) (steady : σ.battery.Steady now) :
    ∃ fuel, σ.wakeUp driver now fuel ≠ .running := by
  obtain ⟨m, hm⟩ : ∃ m, σ.battery.cancels.card = m := ⟨_, rfl⟩
  induction m using Nat.strong_induction_on generalizing σ with
  | _ m ih =>
      by_cases waits : σ.battery.Waits now
      · exact ⟨1, by rw [wakeUp_of_waits waits]; simp⟩
      obtain ⟨fuel, r, scanned⟩ : ∃ fuel r, scan driver now fuel σ.battery σ.sequenceNumber []
          σ.battery.eventSet.begin = some r :=
        ⟨_, scan_isSome now driver σ.sequenceNumber [] steady
          (fun x hx => (OrderedSet.begin_eq_some hx).1) (Nat.lt_succ_self _)⟩
      cases hbatch : σ.battery.runEventThread driver fuel σ.sequenceNumber now with
      | running =>
          rw [Battery.runEventThread, scanned] at hbatch
          cases hcancel : r.battery.cancel r.iter <;> simp [hcancel] at hbatch
      | outOfRange =>
          refine ⟨fuel + 1, ?_⟩
          rw [wakeUp, if_neg waits, hbatch]
          simp
      | done b n commanded =>
          have typed' := (runEventThread_refreshes typed hbatch).choose_spec.2.2.1
          have steady' := runEventThread_steady typed steady hbatch
          obtain ⟨fuel', ends⟩ : ∃ fuel', wakeUp driver now fuel'
              ⟨b, n, commanded.getD σ.lastCommanded⟩ ≠ .running := by
            rcases waits_or_fewer_cancels steady hbatch with waits' | fewer
            · exact ⟨1, by rw [wakeUp_of_waits waits']; simp⟩
            · exact ih _ (hm ▸ Finset.card_lt_card fewer)
                (σ := ⟨b, n, commanded.getD σ.lastCommanded⟩) typed' steady' rfl
          obtain ⟨more, same⟩ := exists_wakeUp_of_batch waits hbatch rfl ends
          exact ⟨more, same ▸ ends⟩

/-- From a battery that is not, the thread never waits again. -/
theorem wakeUp_ne_waits (kept : Kept (σ.battery, σ.sequenceNumber))
    (unsteady : ¬ σ.battery.Steady now) (fuel : ℕ) (τ : EventThread) :
    σ.wakeUp driver now fuel ≠ .waits τ := by
  induction fuel generalizing σ with
  | zero => simp [wakeUp]
  | succ fuel ih =>
      obtain ⟨-, x, hx, -, xdue⟩ := not_steady_iff.mp unsteady
      have busy : ¬ σ.battery.Waits now := fun waits =>
        absurd (Battery.waits_iff.mp waits x hx) (not_lt.mpr xdue)
      rw [wakeUp, if_neg busy]
      cases hbatch : σ.battery.runEventThread driver fuel σ.sequenceNumber now with
      | running => simp
      | outOfRange => simp
      | done b n commanded =>
          obtain ⟨kept', unsteady'⟩ := runEventThread_not_steady kept unsteady hbatch
          exact ih kept' unsteady'

end EventThread

theorem request_maxStaleness (b : Battery) (r : Request) :
    (b.request r).maxStaleness = b.maxStaleness := by
  by_cases refuses : b.Refuses r
  · rw [Battery.request_of_refuses refuses]
  · rw [Battery.request_of_accepts refuses]
    rfl

theorem LifeAction.step_maxStaleness {driver : Driver} {b b' : Battery} {n n' : ℕ}
    {action : LifeAction} (typed : b.Typed) (step : action.step driver (b, n) = some (b', n')) :
    b'.maxStaleness = b.maxStaleness := by
  cases action with
  | setRefreshMode now refreshMode =>
      have result : b.setRefreshMode driver now n refreshMode = (b', n') := Option.some.inj step
      unfold Battery.setRefreshMode at result
      split_ifs at result <;> cases result <;> rfl
  | schedule now currentMA startTime endTime =>
      obtain ⟨rfl, -⟩ := Prod.mk_inj.mp (Option.some.inj step)
      exact request_maxStaleness b _
  | request r =>
      obtain ⟨rfl, -⟩ := Prod.mk_inj.mp (Option.some.inj step)
      exact request_maxStaleness b r
  | insert r =>
      obtain ⟨rfl, -⟩ := Prod.mk_inj.mp (Option.some.inj step)
      rfl
  | refresh status =>
      obtain ⟨rfl, -⟩ := Prod.mk_inj.mp (Option.some.inj step)
      rfl
  | batch fuel now =>
      obtain ⟨commanded, done⟩ := batch_step step
      exact (runEventThread_refreshes typed done).choose_spec.2.2.2.2.1
  | draw =>
      obtain ⟨rfl, -⟩ := Prod.mk_inj.mp (Option.some.inj step)
      rfl

theorem Construction.battery_maxStaleness (construction : Construction) (batteryName : String)
    (maxStaleness : ℤ) (refreshMode : RefreshMode) (now : ℤ) (n : ℕ) :
    (construction.battery batteryName maxStaleness refreshMode now n).1.maxStaleness =
      maxStaleness := by
  cases construction with
  | physical => rfl
  | aggregate => rfl
  | partition status =>
      unfold Construction.battery Battery.setSourceBattery
      split_ifs <;> rfl

/-- An aggregate in ACTIVE mode with a staleness of 0: the first wake-up is still in its first scan
whatever the fuel. With one of -1, as a client sends 2^64 - 1, the scans end but the thread never
waits again. -/
theorem wakeUp_never_releases :
    let zero := Construction.aggregate.battery "g" (parseStaleness (some 0)) .active 0 1
    let negative := Construction.aggregate.battery "g" (parseStaleness (some (-1))) .active 0 1
    (∀ fuel, scan .still 0 fuel zero.1 zero.2 [] zero.1.eventSet.begin = none) ∧
      (¬ ∃ fuel, EventThread.wakeUp .still 0 fuel ⟨zero.1, zero.2, 0⟩ ≠ .running) ∧
      ¬ ∃ fuel τ, EventThread.wakeUp .still 0 fuel ⟨negative.1, negative.2, 0⟩ = .waits τ := by
  intro zero negative
  have endless : ∀ fuel, scan .still 0 fuel zero.1 zero.2 [] zero.1.eventSet.begin = none := by
    intro fuel
    refine scan_eq_none .still rfl rfl ?_
      ⟨⟨.refresh, 0, 0, "g", 1⟩, List.mem_cons_self, ⟨rfl, le_rfl⟩, ?_, fun y hy hid _ => ?_⟩
    · exact (Construction.aggregate.battery_chain "g" 0 .active 0 1).1.drawn
    · exact not_before_begin List.mem_cons_self
    · rw [List.mem_singleton.mp hy] at hid
      cases hid
  refine ⟨endless, ?_, ?_⟩
  · rintro ⟨fuel, ends⟩
    cases fuel with
    | zero => exact ends rfl
    | succ fuel =>
        refine ends ?_
        rw [EventThread.wakeUp, if_neg (by decide), Battery.runEventThread, endless fuel]
  · rintro ⟨fuel, τ, waits⟩
    refine EventThread.wakeUp_ne_waits ?_ (by decide) fuel τ waits
    exact (Construction.aggregate.battery_chain "g" (-1) .active 0 1).1

end BatteryOS.V3
