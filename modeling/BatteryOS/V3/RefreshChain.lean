import BatteryOS.V3.Lifecycle
import BatteryOS.V3.LockStep

/-! The chain of refreshes. In ACTIVE mode every REFRESH that falls due queues the next one, so a
battery is refreshed for ever as long as one is pending, and twice as often when two are. A change
of mode takes no REFRESH out of the queue: a battery that is made ACTIVE while one is still
pending has two from then on. A physical battery that is constructed ACTIVE has none. -/

namespace BatteryOS.V3

def OneOf (refreshMode : RefreshMode) (P : Event → Prop) : Prop :=
  match refreshMode with
  | .active => ∃! z, P z
  | .lazy => ∀ z z', P z → P z' → z = z'

theorem OneOf.unique {refreshMode : RefreshMode} {P : Event → Prop} (h : OneOf refreshMode P)
    {z z' : Event} (hz : P z) (hz' : P z') : z = z' := by
  cases refreshMode with
  | active => exact ExistsUnique.unique h hz hz'
  | lazy => exact h z z' hz hz'

theorem OneOf.congr {refreshMode : RefreshMode} {P Q : Event → Prop} (h : OneOf refreshMode P)
    (same : ∀ z, P z ↔ Q z) : OneOf refreshMode Q := by
  obtain rfl : P = Q := funext fun z => propext (same z)
  exact h

namespace Battery

/-- Exactly one REFRESH is pending in ACTIVE mode, at most one in LAZY mode. -/
def RefreshChain (b : Battery) : Prop :=
  OneOf b.refreshMode fun z => z ∈ b.eventSet ∧ z.eventID = .refresh

/-- No entry of the map is a REFRESH, whatever it is merged with. -/
structure Typed (b : Battery) : Prop where
  numbered : b.Numbered
  eventID : ∀ k pair, b.eventMap.find? k = some pair →
    pair.first.eventID = .setCurrentBegin ∧ pair.second.eventID = .setCurrentEnd

end Battery

section Insert

variable {b : Battery} {z : Event} {pair : EventPair} {s : EventSet} {name : String}
  {startTime endTime : ℤ}

theorem mergedPair_eventID (h : pair.first.eventID = .setCurrentBegin ∧
    pair.second.eventID = .setCurrentEnd) :
    (mergedPair name startTime endTime pair).first.eventID = .setCurrentBegin ∧
      (mergedPair name startTime endTime pair).second.eventID = .setCurrentEnd := by
  unfold mergedPair
  split
  · exact ⟨h.1, rfl⟩
  · exact ⟨rfl, h.2⟩
  all_goals exact h

theorem mem_insert_of_ne_eventID {x : Event} (h : z.eventID ≠ x.eventID) :
    z ∈ s.insert x ↔ z ∈ s :=
  OrderedSet.mem_insert.trans (or_iff_left fun e => h (congrArg Event.eventID e.1))

theorem mem_erase_of_ne_eventID {x : Event} (h : z.eventID ≠ x.eventID) :
    z ∈ s.erase x ↔ z ∈ s :=
  OrderedSet.mem_erase.trans (and_iff_left fun e => h (Event.key_eq_iff.mp e).2.1)

theorem mem_mergedSet_refresh (h : pair.first.eventID = .setCurrentBegin ∧
    pair.second.eventID = .setCurrentEnd) (hid : z.eventID = .refresh) :
    z ∈ mergedSet name startTime endTime pair s ↔ z ∈ s := by
  unfold mergedSet
  split
  · exact mem_insert_of_ne_eventID (by simp [hid, cancelEvent])
  · rw [mem_insert_of_ne_eventID (by simp [hid, movedEnd]),
      mem_erase_of_ne_eventID (by simp [hid, h.2])]
  · rw [mem_insert_of_ne_eventID (by simp [hid, movedBegin]),
      mem_erase_of_ne_eventID (by simp [hid, h.1])]
  all_goals exact Iff.rfl

theorem Battery.Typed.mem_insertEvents (h : b.Typed) (name : String) (currentMA : ℚ)
    (startTime endTime : ℤ) (sequenceNumber : ℕ) (hid : z.eventID = .refresh) :
    z ∈ (b.checkMergeAndInsertEvents name currentMA startTime endTime sequenceNumber).eventSet ↔
      z ∈ b.eventSet := by
  unfold checkMergeAndInsertEvents
  dsimp only
  rw [mem_insert_of_ne_eventID (by simp [hid, requestPair]),
    mem_insert_of_ne_eventID (by simp [hid, requestPair])]
  cases stored : b.eventMap.find? sequenceNumber with
  | some pair =>
      obtain ⟨first, second⟩ := h.eventID _ pair stored
      simp only [checkMerge, stored]
      rw [mem_erase_of_ne_eventID (by simp [hid, second]),
        mem_erase_of_ne_eventID (by simp [hid, first])]
  | none =>
      cases at_z : b.eventMap.find? z.sequenceNumber with
      | none => exact checkMerge_eventSet_absent _ _ _ _ h.numbered stored at_z z rfl
      | some pair =>
          rw [checkMerge_eventSet_stored _ _ _ _ h.numbered stored at_z z rfl,
            mem_mergedSet_refresh (h.eventID _ pair at_z) hid]

theorem Battery.Typed.insertEvents (h : b.Typed) (name : String) (currentMA : ℚ)
    (startTime endTime : ℤ) (sequenceNumber : ℕ) :
    (b.checkMergeAndInsertEvents name currentMA startTime endTime sequenceNumber).Typed where
  numbered := numbered_insertEvents name currentMA startTime endTime h.numbered
  eventID k pair stored := by
    rcases find?_insertEvents_cases name currentMA startTime endTime h.numbered stored with
      ⟨rfl, rfl⟩ | ⟨-, old, at_k, rfl | rfl⟩
    · exact ⟨rfl, rfl⟩
    · exact h.eventID k _ at_k
    · exact mergedPair_eventID (h.eventID k old at_k)

theorem Battery.Typed.of_subset {b' : Battery} (h : b.Typed)
    (entries : ∀ k pair, b'.eventMap.find? k = some pair → b.eventMap.find? k = some pair) :
    b'.Typed :=
  ⟨fun k pair stored => h.numbered k pair (entries k pair stored),
    fun k pair stored => h.eventID k pair (entries k pair stored)⟩

end Insert

section Batch

variable {driver : Driver} {now : ℤ} {fuel n : ℕ} {b c : Battery} {eventVector : List Event}
  {iter : Option Event}

def Outstanding (s : EventSet) (eventVector : List Event) (z : Event) : Prop :=
  (z ∈ s ∧ z.eventID = .refresh) ∧ z ∉ eventVector

def Drawn (s : EventSet) (n : ℕ) : Prop :=
  ∀ z ∈ s, z.eventID = .refresh → z.sequenceNumber < n

theorem refreshAt_drawn (driver : Driver) (now : ℤ) (x : Event) (drawn : Drawn b.eventSet n) :
    let next := b.refreshAt driver now n x
    Drawn next.1.eventSet next.2 := by
  unfold Battery.refreshAt
  dsimp only
  split_ifs
  · intro z hz hid
    rcases OrderedSet.mem_insert.mp hz with hz | ⟨rfl, -⟩
    · exact (drawn z hz hid).trans (Nat.lt_add_one n)
    · exact Nat.lt_add_one n
  · exact drawn

theorem refreshAt_chain (driver : Driver) (now : ℤ) {x : Event} (hid : x.eventID = .refresh)
    (member : x ∈ b.eventSet) (unmet : x ∉ eventVector) (met : ∀ z ∈ eventVector, z ∈ b.eventSet)
    (chain : OneOf b.refreshMode (Outstanding b.eventSet eventVector))
    (drawn : Drawn b.eventSet n) :
    let next := b.refreshAt driver now n x
    OneOf next.1.refreshMode (Outstanding next.1.eventSet (eventVector ++ [x])) := by
  have only : ∀ z, Outstanding b.eventSet eventVector z → z = x :=
    fun z hz => chain.unique hz ⟨⟨member, hid⟩, unmet⟩
  unfold Battery.refreshAt
  cases mode : b.refreshMode with
  | lazy =>
      rw [if_neg (by simp)]
      dsimp only
      rintro z z' ⟨hz, later⟩
      exact absurd (only z ⟨hz, fun h => later (List.mem_append_left _ h)⟩)
        fun e => later (List.mem_append_right _ (by simp [e]))
  | active =>
      rw [if_pos rfl]
      dsimp only
      have number : ∀ z ∈ b.eventSet, z.eventID = .refresh → z.sequenceNumber ≠ n :=
        fun z hz hr => (drawn z hz hr).ne
      set fresh : Event := { x with eventTime := x.eventTime + b.maxStaleness, sequenceNumber := n }
        with hfresh
      have freshID : fresh.eventID = .refresh := hid
      have mem : ∀ z, z.eventID = .refresh →
          (z ∈ b.eventSet.insert fresh ↔ z ∈ b.eventSet ∨ z = fresh) := by
        intro z hr
        refine OrderedSet.mem_insert.trans (or_congr_right (and_iff_left fun y hy same => ?_))
        obtain ⟨-, yid, ynumber⟩ := Event.key_eq_iff.mp same
        exact number y hy (yid.trans freshID) ynumber
      have new : fresh ∉ b.eventSet := fun h => number fresh h freshID rfl
      refine ⟨fresh, ⟨⟨(mem fresh freshID).mpr (.inr rfl), freshID⟩, fun h => ?_⟩, ?_⟩
      · rcases List.mem_append.mp h with h | h
        · exact new (met fresh h)
        · exact new (List.mem_singleton.mp h ▸ member)
      · rintro z ⟨⟨hz, hr⟩, later⟩
        rcases (mem z hr).mp hz with hz | rfl
        · exact absurd (only z ⟨⟨hz, hr⟩, fun h => later (List.mem_append_left _ h)⟩)
            fun e => later (List.mem_append_right _ (by simp [e]))
        · rfl

theorem scan_drawn {r : Scan} (h : scan driver now fuel b n eventVector iter = some r)
    (drawn : Drawn b.eventSet n) : Drawn r.battery.eventSet r.sequenceNumber := by
  refine (scan_invariant (I := fun s => Drawn s.battery.eventSet s.sequenceNumber) ?_ ?_ h drawn).1
  · exact fun c n eventVector x inv _ _ _ => inv
  · exact fun c n eventVector x inv _ _ => refreshAt_drawn driver now x inv

theorem scan_chain {r : Scan} (h : scan driver now fuel b n eventVector iter = some r)
    (walked : Walked now b eventVector iter)
    (chain : OneOf b.refreshMode (Outstanding b.eventSet eventVector))
    (drawn : Drawn b.eventSet n) :
    OneOf r.battery.refreshMode (Outstanding r.battery.eventSet r.eventVector) := by
  refine (scan_invariant (I := fun s => Walked now s.battery s.eventVector s.iter ∧
    OneOf s.battery.refreshMode (Outstanding s.battery.eventSet s.eventVector) ∧
      Drawn s.battery.eventSet s.sequenceNumber) ?_ ?_ h ⟨walked, chain, drawn⟩).1.2.1
  · rintro c n eventVector x ⟨walked, chain, drawn⟩ due no_refresh no_cancel
    refine ⟨walked.next (.refl c) due no_cancel, chain.congr fun z => ?_, drawn⟩
    refine and_congr_right fun hz => not_congr ?_
    rw [List.mem_append, List.mem_singleton]
    refine (or_iff_left ?_).symm
    rintro rfl
    exact no_refresh hz.2
  · rintro c n eventVector x ⟨walked, chain, drawn⟩ due hid
    have refreshed := refreshAt_refreshed driver now c n hid
    have unmet : x ∉ eventVector := fun hx => lt_irrefl _ (walked.before x hx x rfl)
    exact ⟨walked.next refreshed due (by simp [hid]),
      refreshAt_chain driver now hid (walked.iter_mem x rfl) unmet walked.member chain drawn,
      refreshAt_drawn driver now x drawn⟩

theorem cancel_chain (typed : b.Typed) (h : b.cancel iter = some c) :
    c.Typed ∧ c.refreshMode = b.refreshMode ∧ c.maxStaleness = b.maxStaleness ∧
      ∀ z, z.eventID = .refresh → (z ∈ c.eventSet ↔ z ∈ b.eventSet) := by
  rcases Battery.cancel_eq_some h with ⟨rfl, -⟩ | ⟨x, pair, -, xid, stored, rfl⟩
  · exact ⟨typed, rfl, rfl, fun _ _ => Iff.rfl⟩
  · obtain ⟨first, second⟩ := typed.eventID _ pair stored
    refine ⟨typed.of_subset fun k pair' stored' => ?_, rfl, rfl, fun z hid => ?_⟩
    · rw [OrderedMap.find?_erase] at stored'
      split_ifs at stored'
      exact stored'
    · rw [mem_erase_of_ne_eventID (by simp [hid, xid]),
        mem_erase_of_ne_eventID (by simp [hid, second]),
        mem_erase_of_ne_eventID (by simp [hid, first])]

theorem foldl_applyEvent_typed (typed : b.Typed) (eventVector : List Event) :
    (eventVector.foldl Battery.applyEvent b).Typed := by
  refine typed.of_subset fun k pair stored => ?_
  rw [Battery.foldl_applyEvent_find?] at stored
  split_ifs at stored
  exact stored

theorem runEventThread_refreshes {n' : ℕ} {b' : Battery} {commanded : Option ℤ} (typed : b.Typed)
    (h : b.runEventThread driver fuel n now = .done b' n' commanded) :
    ∃ s, scan driver now fuel b n [] b.eventSet.begin = some s ∧ n' = s.sequenceNumber ∧
      b'.Typed ∧ b'.refreshMode = b.refreshMode ∧ b'.maxStaleness = b.maxStaleness ∧
      ∀ z, z.eventID = .refresh →
        (z ∈ b'.eventSet ↔ z ∈ s.battery.eventSet ∧ z ∉ s.eventVector) := by
  obtain ⟨s, c, hscan, hcancel, rfl, happly⟩ := Battery.runEventThread_eq_done h
  obtain ⟨refreshed, walked, -⟩ := scan_walked hscan (walked_begin now b)
  have typedScan : s.battery.Typed :=
    typed.of_subset fun k pair stored => by rwa [refreshed.eventMap] at stored
  obtain ⟨typedCancel, mode, staleness, refreshes⟩ := cancel_chain typedScan hcancel
  refine ⟨s, hscan, rfl, ?_⟩
  by_cases empty : c.eventSet.elems = []
  · rw [Battery.applyEvents_of_empty driver empty] at happly
    obtain rfl := (Prod.ext_iff.mp happly).1
    refine ⟨typedCancel, mode.trans refreshed.refreshMode, staleness.trans refreshed.maxStaleness,
      fun z hid => ?_⟩
    have nothing : ∀ z, z ∉ b'.eventSet := fun z hz => by
      rw [OrderedSet.mem_def, empty] at hz
      cases hz
    exact iff_of_false (nothing z) fun hz => nothing z ((refreshes z hid).mpr hz.1)
  · obtain ⟨status, _, applied, -⟩ := Battery.applyEvents_of_nonempty driver empty s.eventVector
    rw [applied] at happly
    obtain rfl := (Prod.ext_iff.mp happly).1
    obtain ⟨-, mode', staleness'⟩ := foldl_applyEvent_fields s.eventVector c
    refine ⟨(foldl_applyEvent_typed typedCancel s.eventVector).of_subset fun _ _ => id,
      (mode'.trans mode).trans refreshed.refreshMode,
      (staleness'.trans staleness).trans refreshed.maxStaleness, fun z hid => ?_⟩
    refine (Battery.mem_foldl_applyEvent s.eventVector c z).trans ?_
    rw [refreshes z hid]
    refine and_congr_right fun hz => ⟨fun apart later => apart z later rfl, fun unmet y hy same => ?_⟩
    exact unmet (OrderedSet.eq_of_key_eq hz (walked.member y hy) same ▸ hy)

theorem runEventThread_chain {n' : ℕ} {b' : Battery} {commanded : Option ℤ} (typed : b.Typed)
    (drawn : Drawn b.eventSet n)
    (h : b.runEventThread driver fuel n now = .done b' n' commanded) :
    b'.Typed ∧ Drawn b'.eventSet n' ∧ (b.RefreshChain → b'.RefreshChain) := by
  obtain ⟨s, hscan, rfl, typed', mode, -, refreshes⟩ := runEventThread_refreshes typed h
  have mode' := (scan_walked hscan (walked_begin now b)).1.refreshMode
  refine ⟨typed', fun z hz hid => scan_drawn hscan drawn z ((refreshes z hid).mp hz).1 hid,
    fun chain => ?_⟩
  have outstanding := scan_chain hscan (walked_begin now b) (OneOf.congr chain fun z =>
    (and_iff_left (List.not_mem_nil)).symm) drawn
  rw [mode', ← mode] at outstanding
  refine OneOf.congr outstanding fun z => ?_
  rw [Outstanding, and_right_comm]
  exact and_congr_left fun hid => (refreshes z hid).symm

end Batch

section Run

variable {driver : Driver} {b b' : Battery} {n n' : ℕ}

/-- The mode is not changed to ACTIVE while a REFRESH is pending. -/
def LifeAction.Clean (σ : Battery × ℕ) : LifeAction → Prop
  | .setRefreshMode _ refreshMode => σ.1.refreshMode = .lazy → refreshMode = .active →
      ∀ z ∈ σ.1.eventSet, z.eventID ≠ .refresh
  | .schedule _ _ _ _ | .request _ | .insert _ | .refresh _ | .batch _ _ | .draw => True

/-- What holds of every battery and counter, however often the mode is changed. -/
structure Kept (σ : Battery × ℕ) : Prop where
  typed : σ.1.Typed
  drawn : Drawn σ.1.eventSet σ.2

theorem insert_kept (kept : Kept (b, n)) (r : Request) :
    Kept (b.checkMergeAndInsertEvents r.name r.currentMA r.startTime r.endTime r.sequenceNumber,
        n) ∧
      (b.RefreshChain → (b.checkMergeAndInsertEvents r.name r.currentMA r.startTime r.endTime
        r.sequenceNumber).RefreshChain) := by
  have mem := fun z hid => kept.typed.mem_insertEvents (z := z) r.name r.currentMA r.startTime
    r.endTime r.sequenceNumber hid
  refine ⟨⟨kept.typed.insertEvents _ _ _ _ _, fun z hz hid => ?_⟩,
    fun chain => OneOf.congr chain fun z => and_congr_left fun hid => (mem z hid).symm⟩
  exact kept.drawn z ((mem z hid).mp hz) hid

theorem request_kept (kept : Kept (b, n)) (r : Request) :
    Kept (b.request r, n) ∧ (b.RefreshChain → (b.request r).RefreshChain) := by
  by_cases refuses : b.Refuses r
  · rw [Battery.request_of_refuses refuses]
    exact ⟨kept, id⟩
  · rw [Battery.request_of_accepts refuses]
    exact insert_kept kept r

theorem Kept.draw (kept : Kept (b, n)) : Kept (b, n + 1) :=
  ⟨kept.typed, fun z hz hid => (kept.drawn z hz hid).trans (Nat.lt_add_one n)⟩

theorem mem_setRefreshMode_active (driver : Driver) (now : ℤ) (kept : Kept (b, n))
    (mode : b.refreshMode = .lazy) :
    let next := b.setRefreshMode driver now n .active
    next.1.refreshMode = .active ∧ next.2 = n + 1 ∧ next.1.Typed ∧
      ∃ fresh : Event, fresh.eventID = .refresh ∧ fresh.sequenceNumber = n ∧ fresh ∉ b.eventSet ∧
        ∀ z, z.eventID = .refresh → (z ∈ next.1.eventSet ↔ z ∈ b.eventSet ∨ z = fresh) := by
  unfold Battery.setRefreshMode
  rw [if_neg (by simp [mode]), if_pos rfl]
  refine ⟨rfl, rfl, kept.typed.of_subset fun _ _ => id,
    ⟨.refresh, 0, now + b.maxStaleness, b.batteryName, n⟩, rfl, rfl, fun h => ?_,
    fun z hid => ?_⟩
  · exact lt_irrefl n (kept.drawn _ h rfl)
  · refine OrderedSet.mem_insert.trans (or_congr_right (and_iff_left fun y hy same => ?_))
    obtain ⟨-, yid, ynumber⟩ := Event.key_eq_iff.mp same
    exact absurd (kept.drawn y hy yid) (by simp [ynumber])

theorem setRefreshMode_kept (driver : Driver) (now : ℤ) (refreshMode : RefreshMode)
    (kept : Kept (b, n)) :
    let next := b.setRefreshMode driver now n refreshMode
    Kept next ∧ (b.RefreshChain →
      LifeAction.Clean (b, n) (.setRefreshMode now refreshMode) → next.1.RefreshChain) := by
  intro next
  by_cases same : b.refreshMode = refreshMode
  · simp only [next, Battery.setRefreshMode, if_pos same]
    exact ⟨kept, fun chain _ => chain⟩
  cases refreshMode with
  | lazy =>
      have mode : b.refreshMode = .active := by
        cases h : b.refreshMode with
        | lazy => exact absurd h same
        | active => rfl
      simp only [next, Battery.setRefreshMode, if_neg same, reduceCtorEq, if_false]
      refine ⟨⟨kept.typed.of_subset fun _ _ => id, kept.drawn⟩, fun chain _ z z' hz hz' => ?_⟩
      rw [Battery.RefreshChain, mode] at chain
      exact chain.unique hz hz'
  | active =>
      have mode : b.refreshMode = .lazy := by
        cases h : b.refreshMode with
        | lazy => rfl
        | active => exact absurd h same
      obtain ⟨mode', number, typed, fresh, freshID, freshNumber, new, mem⟩ :=
        mem_setRefreshMode_active driver now kept mode
      refine ⟨⟨typed, fun z hz hid => ?_⟩, fun _ clean => ?_⟩
      · rw [show next.2 = n + 1 from number]
        rcases (mem z hid).mp hz with hz | rfl
        · exact (kept.drawn z hz hid).trans (Nat.lt_add_one n)
        · exact freshNumber ▸ Nat.lt_add_one n
      · unfold Battery.RefreshChain
        rw [show next.1.refreshMode = .active from mode']
        refine ⟨fresh, ⟨(mem fresh freshID).mpr (.inr rfl), freshID⟩, fun z hz => ?_⟩
        exact ((mem z hz.2).mp hz.1).resolve_left fun old => clean mode rfl z old hz.2

/-- A step keeps the chain, unless it changes the mode to ACTIVE while a REFRESH is pending. -/
theorem LifeAction.step_chain {action : LifeAction} (kept : Kept (b, n))
    (step : action.step driver (b, n) = some (b', n')) :
    Kept (b', n') ∧ (b.RefreshChain → action.Clean (b, n) → b'.RefreshChain) := by
  cases action with
  | setRefreshMode now refreshMode =>
      have result : b.setRefreshMode driver now n refreshMode = (b', n') := Option.some.inj step
      have next := setRefreshMode_kept driver now refreshMode kept
      rwa [result] at next
  | schedule now currentMA startTime endTime =>
      obtain ⟨rfl, rfl⟩ := Prod.mk_inj.mp (Option.some.inj step)
      obtain ⟨next, chain⟩ :=
        request_kept kept ⟨now, currentMA, startTime, endTime, b.batteryName, n⟩
      exact ⟨next.draw, fun h _ => chain h⟩
  | request r =>
      obtain ⟨rfl, rfl⟩ := Prod.mk_inj.mp (Option.some.inj step)
      obtain ⟨next, chain⟩ := request_kept kept r
      exact ⟨next, fun h _ => chain h⟩
  | insert r =>
      obtain ⟨rfl, rfl⟩ := Prod.mk_inj.mp (Option.some.inj step)
      obtain ⟨next, chain⟩ := insert_kept kept r
      exact ⟨next, fun h _ => chain h⟩
  | refresh status =>
      obtain ⟨rfl, rfl⟩ := Prod.mk_inj.mp (Option.some.inj step)
      exact ⟨⟨kept.typed.of_subset fun _ _ => id, kept.drawn⟩, fun h _ => h⟩
  | batch fuel now =>
      obtain ⟨commanded, done⟩ := batch_step step
      obtain ⟨typed, drawn, chain⟩ := runEventThread_chain kept.typed kept.drawn done
      exact ⟨⟨typed, drawn⟩, fun h _ => chain h⟩
  | draw =>
      obtain ⟨rfl, rfl⟩ := Prod.mk_inj.mp (Option.some.inj step)
      exact ⟨kept.draw, fun h _ => h⟩

/-- A change to ACTIVE over a pending REFRESH leaves two. -/
theorem LifeAction.clean_of_chain {action : LifeAction} (kept : Kept (b, n))
    (after : ∀ σ', action.step driver (b, n) = some σ' → σ'.1.RefreshChain) :
    action.Clean (b, n) := by
  cases action with
  | setRefreshMode now refreshMode =>
      rintro mode rfl z hz hid
      obtain ⟨mode', -, -, fresh, freshID, -, new, mem⟩ :=
        mem_setRefreshMode_active driver now kept mode
      have chain := after _ rfl
      have same := chain.unique ⟨(mem z hid).mpr (.inl hz), hid⟩
        ⟨(mem fresh freshID).mpr (.inr rfl), freshID⟩
      exact new (same ▸ hz)
  | schedule now currentMA startTime endTime => trivial
  | request r => trivial
  | insert r => trivial
  | refresh status => trivial
  | batch fuel now => trivial
  | draw => trivial

end Run

theorem refreshChain_of_empty {b : Battery} (empty : b.eventSet = ∅) :
    b.RefreshChain ↔ b.refreshMode = .lazy := by
  have nothing : ∀ z, z ∉ b.eventSet := fun z => empty ▸ OrderedSet.not_mem_empty z
  unfold Battery.RefreshChain
  cases b.refreshMode with
  | lazy => exact iff_of_true (fun z z' hz => absurd hz.1 (nothing z)) rfl
  | active =>
      refine iff_of_false ?_ (by simp)
      rintro ⟨z, ⟨hz, -⟩, -⟩
      exact nothing z hz

theorem refreshChain_of_one {b : Battery} {x : Event} (hid : x.eventID = .refresh)
    (one : b.eventSet = OrderedSet.insert ∅ x) : b.RefreshChain := by
  have only : ∀ z, z ∈ b.eventSet ↔ z = x := by
    intro z
    rw [one, OrderedSet.mem_insert]
    simp
  unfold Battery.RefreshChain
  cases b.refreshMode with
  | lazy => exact fun z z' hz hz' => ((only z).mp hz.1).trans ((only z').mp hz'.1).symm
  | active => exact ⟨x, ⟨(only x).mpr rfl, hid⟩, fun z hz => (only z).mp hz.1⟩

/-- A battery after its construction: one REFRESH is pending, but for a physical one and a LAZY
partition, which have none. -/
theorem Construction.battery_chain (construction : Construction) (batteryName : String)
    (maxStaleness : ℤ) (refreshMode : RefreshMode) (now : ℤ) (n : ℕ) :
    Kept (construction.battery batteryName maxStaleness refreshMode now n) ∧
      ((construction.battery batteryName maxStaleness refreshMode now n).1.RefreshChain ↔
        ¬ (construction = .physical ∧ refreshMode = .active)) := by
  have typed : ∀ b : Battery, b.eventMap = ∅ → b.Typed := by
    intro b empty
    refine ⟨fun k pair stored => ?_, fun k pair stored => ?_⟩
    all_goals
      rw [empty] at stored
      cases stored
  have undrawn : ∀ n, Drawn ∅ n := fun n z hz => absurd hz (OrderedSet.not_mem_empty z)
  have drawnOne : ∀ x : Event, x.sequenceNumber = n → Drawn (OrderedSet.insert ∅ x) (n + 1) := by
    intro x number z hz _
    rcases OrderedSet.mem_insert.mp hz with hz | ⟨rfl, -⟩
    · exact absurd hz (OrderedSet.not_mem_empty z)
    · exact number ▸ Nat.lt_add_one _
  cases construction with
  | physical =>
      refine ⟨⟨typed _ rfl, undrawn n⟩, (refreshChain_of_empty rfl).trans ?_⟩
      cases refreshMode <;> simp [Construction.battery, Battery.new]
  | aggregate =>
      exact ⟨⟨typed _ rfl, drawnOne _ rfl⟩, iff_of_true (refreshChain_of_one rfl rfl) (by simp)⟩
  | partition status =>
      unfold Construction.battery Battery.setSourceBattery
      cases refreshMode with
      | lazy =>
          refine ⟨⟨typed _ rfl, undrawn n⟩, iff_of_true ?_ (by simp)⟩
          exact (refreshChain_of_empty rfl).mpr rfl
      | active =>
          exact ⟨⟨typed _ rfl, drawnOne _ rfl⟩,
            iff_of_true (refreshChain_of_one rfl rfl) (by simp)⟩

/-- The chain holds in all states of exactly the runs of a battery that is not a physical one
constructed ACTIVE, in which no change to ACTIVE meets a pending REFRESH. -/
theorem refreshChain_iff (driver : Driver) (construction : Construction) (batteryName : String)
    (maxStaleness : ℤ) (refreshMode : RefreshMode) (now : ℤ) (n : ℕ)
    (actions : List LifeAction) :
    StepRun.Always (LifeAction.step driver) (fun σ => σ.1.RefreshChain)
        (construction.battery batteryName maxStaleness refreshMode now n) actions ↔
      ¬ (construction = .physical ∧ refreshMode = .active) ∧
        StepRun.Along (LifeAction.step driver) LifeAction.Clean
          (construction.battery batteryName maxStaleness refreshMode now n) actions := by
  obtain ⟨kept, start⟩ := construction.battery_chain batteryName maxStaleness refreshMode now n
  rw [← start]
  exact StepRun.always_iff_start_and_along (I := Kept) kept
    (fun σ action σ' kept step => (LifeAction.step_chain kept step).1)
    (fun σ action σ' kept chain clean step => (LifeAction.step_chain kept step).2 chain clean)
    fun σ action kept _ after => LifeAction.clean_of_chain kept after

/-- A physical battery that is constructed ACTIVE, and an aggregate that is made LAZY and ACTIVE
again before its REFRESH falls due: a batch later it still has two. -/
theorem refreshChain_lost_and_doubled :
    ¬ (Construction.physical.battery "p" 1000 .active 0 1).1.RefreshChain ∧
      ∃ σ, StepRun.exec (LifeAction.step .still)
          (Construction.aggregate.battery "g" 1000 .active 0 1)
          [.setRefreshMode 0 .lazy, .setRefreshMode 0 .active, .batch 9 0, .batch 9 1000] =
            some σ ∧ ¬ σ.1.RefreshChain := by
  refine ⟨fun chain => ?_, ?_⟩
  · exact absurd ((refreshChain_of_empty rfl).mp chain) (by decide)
  · obtain ⟨σ, run, state⟩ := Option.map_eq_some_iff.mp (show
      (StepRun.exec (LifeAction.step .still) (Construction.aggregate.battery "g" 1000 .active 0 1)
        [.setRefreshMode 0 .lazy, .setRefreshMode 0 .active, .batch 9 0, .batch 9 1000]).map
        (fun σ => σ.1.eventSet.elems) =
      some [⟨.refresh, 0, 2000, "g", 4⟩, ⟨.refresh, 0, 2000, "g", 5⟩] by decide +kernel)
    refine ⟨σ, run, fun chain => ?_⟩
    have mem : ∀ z, z ∈ σ.1.eventSet ↔
        z ∈ [(⟨.refresh, 0, 2000, "g", 4⟩ : Event), ⟨.refresh, 0, 2000, "g", 5⟩] := by
      intro z
      rw [OrderedSet.mem_def, state]
    have same := chain.unique ⟨(mem _).mpr List.mem_cons_self, rfl⟩
      ⟨(mem _).mpr (List.mem_cons_of_mem _ List.mem_cons_self), rfl⟩
    exact absurd same (by decide)

end BatteryOS.V3
