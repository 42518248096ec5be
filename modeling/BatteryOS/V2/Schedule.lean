import BatteryOS.V2.Battery

/-! What a V2 battery has scheduled is a timeline: a request overrides it from its start to its
end and resumes it there, whatever is in the queue, and the background thread does not change
what is still to come. -/

namespace BatteryOS.V2

variable {whenToSet untilWhen : ℤ} {events : List Event}

theorem EventQueue.sorted_timepoint (queue : EventQueue) :
    queue.elems.Pairwise fun x y => x.timepoint ≤ y.timepoint :=
  queue.sorted.imp fun h => Event.timepoint_le_of_key_le _ _ h.le

def Event.previewed (e : Event) : Bool := e.func ≠ .refresh

/-- The second pass removes the events between the two times, and resumes the setting of the last
event up to the later one. -/
theorem previewRemoval_spec (sorted : events.Pairwise fun x y => x.timepoint ≤ y.timepoint)
    (upToNow : Setting) :
    previewRemoval whenToSet untilWhen upToNow events =
      (events.filter fun e => e.previewed && decide
          (whenToSet ≤ e.timepoint ∧ e.timepoint ≤ untilWhen),
        ((events.filter fun e => e.previewed && decide
          (e.timepoint ≤ untilWhen)).getLast?.map Event.setting).getD upToNow) := by
  induction events generalizing upToNow with
  | nil => rfl
  | cons event rest ih =>
      obtain ⟨later, sorted⟩ := List.pairwise_cons.mp sorted
      have last (xs : List Event) : ((event :: xs).getLast?.map Event.setting).getD upToNow =
          (xs.getLast?.map Event.setting).getD event.setting :=
        OrderedSet.getD_getLast?_cons Event.setting upToNow
      rw [previewRemoval]
      split_ifs with refresh within past
      · have skipped : event.previewed = false := by simp [Event.previewed, refresh]
        rw [ih sorted, List.filter_cons_of_neg (by simp [skipped]),
          List.filter_cons_of_neg (by simp [skipped])]
      · have taken : event.previewed = true := by simp [Event.previewed, refresh]
        rw [ih sorted, List.filter_cons_of_pos (by simp [taken, within]),
          List.filter_cons_of_pos (by simp [taken, within]), last]
      · have beyond : ∀ e ∈ event :: rest, ¬ e.timepoint ≤ untilWhen := by
          intro e he
          rcases List.mem_cons.mp he with rfl | he
          · omega
          · have := later e he
            omega
        rw [List.filter_eq_nil_iff.mpr fun e he => by simp [beyond e he],
          List.filter_eq_nil_iff.mpr fun e he => by simp [beyond e he]]
        rfl
      · have taken : event.previewed = true := by simp [Event.previewed, refresh]
        rw [ih sorted, List.filter_cons_of_neg (by simp [within]),
          List.filter_cons_of_pos (by simp [taken]; omega), last]

/-- What is taken is the front of the queue, and not later than the clock. -/
theorem dueEvents_spec (now : ℤ) (readings : List ℤ) (events : List Event) :
    dueEvents now readings events <+: events ∧ ∀ limit, now ≤ limit → (∀ r ∈ readings, r ≤ limit) →
      ∀ e ∈ dueEvents now readings events, e.timepoint ≤ limit := by
  induction events generalizing now readings with
  | nil => exact ⟨List.prefix_refl _, fun _ _ _ e he => by cases he⟩
  | cons top rest ih =>
      rw [dueEvents]
      split_ifs with future
      · exact ⟨List.nil_prefix, fun _ _ _ e he => by cases he⟩
      · obtain ⟨front, past⟩ := ih (readings.head?.getD now) readings.tail
        refine ⟨(List.prefix_cons_inj top).mpr front, fun limit hnow hreadings e he => ?_⟩
        rcases List.mem_cons.mp he with rfl | he
        · omega
        · refine past limit ?_ (fun r hr => hreadings r (List.mem_of_mem_tail hr)) e he
          cases readings with
          | nil => exact hnow
          | cons r _ => exact hreadings r List.mem_cons_self

namespace Battery

def scheduled (b : Battery) (t : ℤ) : ℤ :=
  b.eventQueue.valueAt Event.timepoint Event.currentMA Event.setsCurrent b.currentNow t

/-- There are no cancel events, and numbers to come are new. -/
structure Queued (b : Battery) : Prop where
  noCancel : ∀ e ∈ b.eventQueue, e.func ≠ .cancelEvent
  numbered : ∀ e ∈ b.eventQueue, e.func ≠ .refresh → e.sequenceNumber < b.currentSequenceNumber

variable {b b' : Battery} {now timeAdded timeAdded' t : ℤ} {r : Request}

theorem Queued.setsCurrent_iff (h : b.Queued) {e : Event} (he : e ∈ b.eventQueue) :
    e.setsCurrent = e.previewed := by
  have := h.noCancel e he
  unfold Event.setsCurrent Event.previewed
  cases hfunc : e.func <;> simp_all

theorem queued_new (maxStaleness : ℤ) : (new maxStaleness).Queued :=
  ⟨fun e he => absurd he (OrderedSet.not_mem_empty e),
    fun e he => absurd he (OrderedSet.not_mem_empty e)⟩

theorem Queued.mem_emplace (h : b.Queued) {func : Function} {setting : Setting} {otherData : ℕ}
    (other : func ≠ .refresh) {timepoint : ℤ} {e : Event} :
    e ∈ (b.emplace timeAdded timepoint func setting otherData).eventQueue ↔
      e ∈ b.eventQueue ∨ e = ⟨timepoint, timeAdded, b.currentSequenceNumber, func,
        setting.currentMA, setting.isGreaterThan, otherData⟩ := by
  rw [emplace, OrderedSet.mem_insert]
  refine or_congr_right (and_iff_left fun z hz same => ?_)
  obtain ⟨-, -, number, sameFunc⟩ := Event.key_eq_iff.mp same
  exact absurd (h.numbered z hz (sameFunc ▸ other)) (by simp [number])

theorem Queued.emplace (h : b.Queued) (func : Function) (setting : Setting) (otherData : ℕ)
    (other : func ≠ .refresh) (noCancel : func ≠ .cancelEvent) (timeAdded timepoint : ℤ) :
    (b.emplace timeAdded timepoint func setting otherData).Queued where
  noCancel e he := by
    rcases (h.mem_emplace other).mp he with before | rfl
    · exact h.noCancel e before
    · exact noCancel
  numbered e he hfunc := by
    change _ < b.currentSequenceNumber + 1
    rcases (h.mem_emplace other).mp he with before | rfl
    · exact (h.numbered e before hfunc).trans (Nat.lt_succ_self _)
    · exact Nat.lt_succ_self _

theorem Queued.of_mem (h : b.Queued) (number : b'.currentSequenceNumber = b.currentSequenceNumber)
    (mem : ∀ e ∈ b'.eventQueue, e ∈ b.eventQueue ∨ e.func = .refresh) : b'.Queued where
  noCancel e he := by
    rcases mem e he with before | refresh
    · exact h.noCancel e before
    · simp [refresh]
  numbered e he hfunc := by
    rw [number]
    exact h.numbered e ((mem e he).resolve_right hfunc) hfunc

def replaced (b : Battery) (p : Event → Bool) (timeAdded timeAdded' whenToSet untilWhen : ℤ)
    (target resume : Setting) (otherData : ℕ) : Battery :=
  ((b.remove (b.eventQueue.elems.filter p)).emplace timeAdded whenToSet .setCurrent target
    otherData).emplace timeAdded' untilWhen .setCurrentEnd resume otherData

def toResume (b : Battery) (untilWhen : ℤ) : Setting :=
  ((b.eventQueue.elems.filter fun e => e.previewed && decide
    (e.timepoint ≤ untilWhen)).getLast?.map Event.setting).getD
      ⟨b.currentNow, b.isGreaterThanCurrentNow⟩

theorem scheduleSetCurrent_eq (accepted : ¬ r.whenToSet < now) :
    b.scheduleSetCurrent (fun _ _ => 0) now timeAdded timeAdded' r =
      (true, b.replaced (fun e => e.previewed && decide
          (r.whenToSet ≤ e.timepoint ∧ e.timepoint ≤ r.untilWhen))
        timeAdded timeAdded' r.whenToSet r.untilWhen
        ⟨r.targetCurrentMA, r.isGreaterThanTarget⟩ (b.toResume r.untilWhen) 0) := by
  simp only [scheduleSetCurrent, if_neg accepted, sub_zero,
    previewRemoval_spec b.eventQueue.sorted_timepoint, replaced, toResume]

theorem Queued.currentMA_toResume (h : b.Queued) (t : ℤ) :
    (b.toResume t).currentMA = b.scheduled t := by
  rw [toResume, scheduled, OrderedSet.valueAt, OrderedSet.lastWhere, List.filter_congr fun e he => by
    rw [← h.setsCurrent_iff he]]
  cases (b.eventQueue.elems.filter fun e => e.setsCurrent && decide
    (e.timepoint ≤ t)).getLast? <;> rfl

theorem mem_remove_filter {p : Event → Bool} {e : Event} :
    e ∈ (b.remove (b.eventQueue.elems.filter p)).eventQueue ↔ e ∈ b.eventQueue ∧ p e = false := by
  rw [remove, OrderedSet.mem_foldl_erase fun y hy => (List.mem_filter.mp hy).1, List.mem_filter,
    ← OrderedSet.mem_def, not_and, Bool.not_eq_true]
  exact and_congr_right fun he => ⟨fun h => h he, fun h _ => h⟩

theorem Queued.remove (h : b.Queued) (p : Event → Bool) :
    (b.remove (b.eventQueue.elems.filter p)).Queued :=
  h.of_mem rfl fun _ he => .inl (mem_remove_filter.mp he).1

section Replaced

variable {p q : Event → Bool} (target resume : Setting) (otherData : ℕ)

theorem Queued.mem_replaced (h : b.Queued) {e : Event} :
    e ∈ (b.replaced p timeAdded timeAdded' whenToSet untilWhen target resume
        otherData).eventQueue ↔
      (e ∈ b.eventQueue ∧ p e = false ∨ e = ⟨whenToSet, timeAdded, b.currentSequenceNumber,
        .setCurrent, target.currentMA, target.isGreaterThan, otherData⟩) ∨
      e = ⟨untilWhen, timeAdded', b.currentSequenceNumber + 1, .setCurrentEnd, resume.currentMA,
        resume.isGreaterThan, otherData⟩ := by
  have removed := h.remove p
  have begun := removed.emplace .setCurrent target otherData (by decide) (by decide) timeAdded
    whenToSet
  rw [replaced, begun.mem_emplace (by decide), removed.mem_emplace (by decide), mem_remove_filter]
  rfl

theorem Queued.replaced (h : b.Queued) :
    (b.replaced p timeAdded timeAdded' whenToSet untilWhen target resume otherData).Queued :=
  ((h.remove p).emplace _ target otherData (by decide) (by decide) timeAdded whenToSet).emplace
    _ resume otherData (by decide) (by decide) timeAdded' untilWhen

theorem Queued.overrides (h : b.Queued) (ordered : whenToSet ≤ untilWhen)
    (clock : timeAdded ≤ timeAdded')
    (kind : ∀ currentMA isGreaterThan timepoint timeAdded sequenceNumber func,
      func = .setCurrent ∨ func = .setCurrentEnd → q ⟨timepoint, timeAdded, sequenceNumber, func,
        currentMA, isGreaterThan, otherData⟩ = true)
    (removal : ∀ e ∈ b.eventQueue, q e = true →
      (p e = true ↔ whenToSet ≤ e.timepoint ∧ e.timepoint ≤ untilWhen)) :
    OrderedSet.Overrides Event.timepoint q
      ⟨whenToSet, timeAdded, b.currentSequenceNumber, .setCurrent, target.currentMA,
        target.isGreaterThan, otherData⟩
      ⟨untilWhen, timeAdded', b.currentSequenceNumber + 1, .setCurrentEnd, resume.currentMA,
        resume.isGreaterThan, otherData⟩
      b.eventQueue (b.replaced p timeAdded timeAdded' whenToSet untilWhen target resume
        otherData).eventQueue where
  mem e qe := by
    rw [h.mem_replaced, or_assoc]
    refine or_congr_left (and_congr_right fun he => ?_)
    rw [← removal e he qe, Bool.not_eq_true]
  beginKind := kind _ _ _ _ _ _ (.inl rfl)
  endKind := kind _ _ _ _ _ _ (.inr rfl)
  ordered := ordered
  later := by
    rw [Event.key_lt_iff]
    dsimp only
    omega

end Replaced

theorem Queued.scheduleSetCurrent (h : b.Queued) (now timeAdded timeAdded' : ℤ) (r : Request) :
    (b.scheduleSetCurrent (fun _ _ => 0) now timeAdded timeAdded' r).2.Queued := by
  by_cases refused : r.whenToSet < now
  · rw [Battery.scheduleSetCurrent, if_pos refused]
    exact h
  · rw [scheduleSetCurrent_eq refused]
    exact h.replaced _ _ 0

theorem not_late_of_accepted {getDelay : ℤ → ℤ → ℤ}
    (accepted : (b.scheduleSetCurrent getDelay now timeAdded timeAdded' r).1 = true) :
    ¬ r.whenToSet < now := by
  intro late
  rw [scheduleSetCurrent, if_pos late] at accepted
  cases accepted

/-- An accepted request overrides the timeline from its start to its end, and nowhere else. -/
theorem Queued.scheduled_scheduleSetCurrent (h : b.Queued) (ordered : r.whenToSet ≤ r.untilWhen)
    (clock : timeAdded ≤ timeAdded') (inTime : ¬ r.whenToSet < now) (t : ℤ) :
    (b.scheduleSetCurrent (fun _ _ => 0) now timeAdded timeAdded' r).2.scheduled t =
      if r.whenToSet ≤ t ∧ t < r.untilWhen then r.targetCurrentMA else b.scheduled t := by
  rw [scheduleSetCurrent_eq inTime]
  refine (h.overrides _ _ 0 ordered clock (by simp [Event.setsCurrent]) fun e he kind => ?_).valueAt
    Event.timepoint_le_of_key_le (h.currentMA_toResume r.untilWhen) t
  rw [← h.setsCurrent_iff he, kind, Bool.true_and, decide_eq_true_iff]

theorem remove_prefix {events : List Event} (front : events <+: b.eventQueue.elems) :
    b.eventQueue.elems = events ++ (b.remove events).eventQueue.elems := by
  obtain ⟨rest, split⟩ := front
  rw [remove, OrderedSet.elems_foldl_erase split.symm, split]

theorem Queued.remove_prefix (h : b.Queued) {events : List Event}
    (front : events <+: b.eventQueue.elems) : (b.remove events).Queued :=
  h.of_mem rfl fun e he => .inl <| by
    rw [OrderedSet.mem_def, Battery.remove_prefix front]
    exact List.mem_append_right events he

theorem setLast_eventQueue (succeeds : Bool) (events : List Event) :
    (b.setLast succeeds events).eventQueue = b.eventQueue ∧
      (b.setLast succeeds events).currentSequenceNumber = b.currentSequenceNumber := by
  unfold setLast
  split
  · exact ⟨rfl, rfl⟩
  · split
    · exact ⟨rfl, rfl⟩
    · split <;> exact ⟨rfl, rfl⟩

theorem Queued.emplaceRefresh (h : b.Queued) (now timeAdded : ℤ) :
    (b.emplaceRefresh now timeAdded).Queued :=
  h.of_mem rfl fun _ he => (OrderedSet.mem_insert.mp he).imp_right fun new => by rw [new.1]

section Refresh

variable {p : Event → Bool} {initial : ℤ}

theorem valueAt_emplaceRefresh (other : ∀ e, p e = true → e.func ≠ .refresh)
    (now timeAdded t : ℤ) :
    (b.emplaceRefresh now timeAdded).eventQueue.valueAt Event.timepoint Event.currentMA p initial t =
      b.eventQueue.valueAt Event.timepoint Event.currentMA p initial t :=
  OrderedSet.valueAt_insert (Bool.eq_false_iff.mpr fun kind => other _ kind rfl)

theorem valueAt_requeueRefresh (other : ∀ e, p e = true → e.func ≠ .refresh)
    (now timeAdded : ℤ) (events : List Event) (t : ℤ) :
    (b.requeueRefresh now timeAdded events).eventQueue.valueAt Event.timepoint Event.currentMA p
      initial t = b.eventQueue.valueAt Event.timepoint Event.currentMA p initial t := by
  unfold requeueRefresh
  split_ifs
  · exact valueAt_emplaceRefresh other now timeAdded t
  · rfl

theorem setsCurrent_ne_refresh (e : Event) (kind : e.setsCurrent = true) : e.func ≠ .refresh := by
  intro refresh
  simp [Event.setsCurrent, refresh] at kind

end Refresh

theorem scheduled_emplaceRefresh (now timeAdded t : ℤ) :
    (b.emplaceRefresh now timeAdded).scheduled t = b.scheduled t :=
  valueAt_emplaceRefresh setsCurrent_ne_refresh now timeAdded t

theorem Queued.requeueRefresh (h : b.Queued) (now timeAdded : ℤ) (events : List Event) :
    (b.requeueRefresh now timeAdded events).Queued := by
  unfold Battery.requeueRefresh
  split_ifs
  · exact h.emplaceRefresh now timeAdded
  · exact h

theorem scheduled_requeueRefresh (now timeAdded : ℤ) (events : List Event) (t : ℤ) :
    (b.requeueRefresh now timeAdded events).scheduled t = b.scheduled t := by
  have current : (b.requeueRefresh now timeAdded events).currentNow = b.currentNow := by
    unfold requeueRefresh
    split_ifs <;> rfl
  rw [scheduled, current]
  exact valueAt_requeueRefresh setsCurrent_ne_refresh now timeAdded events t

theorem Queued.setLast (h : b.Queued) (succeeds : Bool) (events : List Event) :
    (b.setLast succeeds events).Queued := by
  obtain ⟨queue, number⟩ := b.setLast_eventQueue succeeds events
  exact h.of_mem number fun e he => .inl (queue ▸ he)

theorem Queued.backgroundFunc (h : b.Queued) (now : ℤ) (readings : List ℤ)
    (refreshed timeAdded : ℤ) (succeeds : Bool) :
    (b.backgroundFunc now readings refreshed timeAdded succeeds).Queued :=
  ((h.remove_prefix (dueEvents_spec now readings _).1).setLast succeeds _).requeueRefresh refreshed
    timeAdded _

theorem Queued.scheduled_setLast (h : b.Queued) {events : List Event}
    (front : events <+: b.eventQueue.elems) (past : ∀ e ∈ events, e.timepoint ≤ t) :
    ((b.remove events).setLast true events).scheduled t = b.scheduled t := by
  have notCancelled : (events.any fun e => e.func = .cancelEvent) = false := by
    refine List.any_eq_false.mpr fun e he => ?_
    simpa using h.noCancel e (front.subset he)
  unfold scheduled
  rw [← OrderedSet.valueAt_of_due (Battery.remove_prefix front) past le_rfl, Battery.setLast,
    notCancelled]
  cases (events.filter Event.setsCurrent).getLast? <;> rfl

theorem Queued.scheduled_backgroundFunc (h : b.Queued) {readings : List ℤ}
    (refreshed timeAdded : ℤ) (hnow : now ≤ t) (hreadings : ∀ r ∈ readings, r ≤ t) :
    (b.backgroundFunc now readings refreshed timeAdded true).scheduled t = b.scheduled t := by
  obtain ⟨front, past⟩ := dueEvents_spec now readings b.eventQueue.elems
  exact (scheduled_requeueRefresh refreshed timeAdded _ t).trans
    (h.scheduled_setLast front (past t hnow hreadings))

inductive Action
  | scheduleSetCurrent (now timeAdded timeAdded' : ℤ) (r : Request)
  | backgroundFunc (now : ℤ) (readings : List ℤ) (refreshed timeAdded : ℤ) (succeeds : Bool)
  | startBackgroundRefresh (now timeAdded : ℤ)
  | stopBackgroundRefresh
  | setMaxStaleness (maxStaleness : ℤ)

def act (getDelay : ℤ → ℤ → ℤ) (b : Battery) : Action → Battery
  | .scheduleSetCurrent now timeAdded timeAdded' r =>
    (b.scheduleSetCurrent getDelay now timeAdded timeAdded' r).2
  | .backgroundFunc now readings refreshed timeAdded succeeds =>
    b.backgroundFunc now readings refreshed timeAdded succeeds
  | .startBackgroundRefresh now timeAdded => (b.startBackgroundRefresh now timeAdded).2
  | .stopBackgroundRefresh => b.stopBackgroundRefresh.2
  | .setMaxStaleness maxStaleness => b.setMaxStaleness maxStaleness

def run (getDelay : ℤ → ℤ → ℤ) (maxStaleness : ℤ) (actions : List Action) : Battery :=
  actions.foldl (act getDelay) (new maxStaleness)

theorem Queued.act (h : b.Queued) (action : Action) : (b.act (fun _ _ => 0) action).Queued := by
  cases action with
  | scheduleSetCurrent now timeAdded timeAdded' r => exact h.scheduleSetCurrent ..
  | backgroundFunc now readings refreshed timeAdded succeeds => exact h.backgroundFunc ..
  | startBackgroundRefresh now timeAdded =>
      rw [Battery.act, startBackgroundRefresh]
      split_ifs
      · exact h
      · exact Queued.emplaceRefresh (b := { b with refreshMode := .active })
          ⟨h.noCancel, h.numbered⟩ now timeAdded
  | stopBackgroundRefresh =>
      rw [Battery.act, stopBackgroundRefresh]
      split_ifs
      · exact ⟨h.noCancel, h.numbered⟩
      · exact h
  | setMaxStaleness maxStaleness => exact ⟨h.noCancel, h.numbered⟩

theorem queued_run (maxStaleness : ℤ) (actions : List Action) :
    (run (fun _ _ => 0) maxStaleness actions).Queued := by
  unfold run
  induction actions using List.reverseRecOn with
  | nil => exact queued_new maxStaleness
  | append_singleton before action ih =>
      rw [List.foldl_append]
      exact ih.act action

/-- In every state of a battery without delays, an accepted request overrides what is scheduled
from its start to its end and leaves it as it was at every other time. -/
theorem override_and_resume (maxStaleness : ℤ) (actions : List Action)
    (ordered : r.whenToSet ≤ r.untilWhen) (clock : timeAdded ≤ timeAdded')
    (accepted : (run (fun _ _ => 0) maxStaleness actions).scheduleSetCurrent (fun _ _ => 0) now
      timeAdded timeAdded' r = (true, b')) (t : ℤ) :
    b'.scheduled t =
      if r.whenToSet ≤ t ∧ t < r.untilWhen then r.targetCurrentMA
      else (run (fun _ _ => 0) maxStaleness actions).scheduled t := by
  have inTime : ¬ r.whenToSet < now := not_late_of_accepted (congrArg Prod.fst accepted)
  have overridden := (queued_run maxStaleness actions).scheduled_scheduleSetCurrent ordered clock
    inTime t
  rwa [accepted] at overridden

/-- A request inside another, while a REFRESH is in the queue between their ends. -/
theorem override_and_resume_nested :
    ((run (fun _ _ => 0) 1000000000 [.startBackgroundRefresh 0 0,
        .scheduleSetCurrent 0 0 1 ⟨200, true, 1000000000, 4000000000⟩]).scheduleSetCurrent
          (fun _ _ => 0) 1 1 2 ⟨300, false, 1000000000, 3000000000⟩).2.scheduled 3500000000 =
      200 :=
  (override_and_resume 1000000000 _ (r := ⟨300, false, 1000000000, 3000000000⟩) (by decide)
    (by decide) (Prod.ext (by decide +kernel) rfl) 3500000000).trans (by decide +kernel)

end Battery

end BatteryOS.V2
