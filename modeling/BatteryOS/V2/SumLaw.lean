import BatteryOS.Library.StepRun
import BatteryOS.V2.Splitter

/-! A splitter over its source. A request of a child is forwarded as one total for its whole
interval, worked out at the start of it, so the current of the source is the sum of the currents
of the children exactly while the others together are not to change inside the interval. -/

namespace BatteryOS.V2

/-- A splitter and its source, and the readings of the clock that their rounds have made. -/
structure SplitSystem (n : ℕ) where
  splitter : BALSplitter n
  source : Battery
  passed : List ℤ

/-- The readings of the clock that a request makes, in the splitter and then in the source. -/
structure Readings where
  now : ℤ
  timeAdded : ℤ
  timeAdded' : ℤ
  sourceNow : ℤ
  sourceTimeAdded : ℤ
  sourceTimeAdded' : ℤ

inductive Upkeep
  | startBackgroundRefresh (now timeAdded : ℤ)
  | stopBackgroundRefresh
  | setMaxStaleness (maxStaleness : ℤ)

def Battery.upkeep (b : Battery) : Upkeep → Battery
  | .startBackgroundRefresh now timeAdded => (b.startBackgroundRefresh now timeAdded).2
  | .stopBackgroundRefresh => b.stopBackgroundRefresh.2
  | .setMaxStaleness maxStaleness => b.setMaxStaleness maxStaleness

namespace SplitSystem

variable {n : ℕ}

def start (childNames : Fin n → String) (estimates : Estimates n) (maxStaleness : ℤ)
    (sourceStaleness : ℤ) : SplitSystem n :=
  ⟨.new childNames estimates maxStaleness, .new sourceStaleness, []⟩

/-- The requests of the children, the rounds of the two background threads, and what else changes
the two batteries. -/
inductive Action (n : ℕ)
  | scheduleSetCurrentOf (childName : String) (r : Request) (clock : Readings)
  | backgroundFunc (now : ℤ) (readings : List ℤ) (setAt : ℤ) (settings : List ℤ)
    (refreshedAt timeAdded : ℤ) (refreshed : Estimates n)
  | sourceBackgroundFunc (now : ℤ) (readings : List ℤ) (refreshedAt timeAdded : ℤ)
  | refresh (refreshed : Estimates n)
  | upkeep (change : Upkeep)
  | sourceUpkeep (change : Upkeep)

/-- A request is possible when it is accepted, ends after it starts and reaches the source after
the rounds before it. The rounds' `set_current` calls succeed. -/
def step (sys : SplitSystem n) : Action n → Option (SplitSystem n)
  | .scheduleSetCurrentOf childName r clock =>
    let forward := sys.source.scheduleSetCurrent (fun _ _ => 0) clock.sourceNow
      clock.sourceTimeAdded clock.sourceTimeAdded'
    let (success, splitter, source) := sys.splitter.scheduleSetCurrentOf forward sys.source
      clock.now clock.timeAdded clock.timeAdded' childName r
    if success ∧ r.whenToSet ≤ r.untilWhen ∧ (∀ x ∈ sys.passed, x ≤ clock.sourceNow) ∧
        clock.timeAdded ≤ clock.timeAdded' ∧ clock.sourceTimeAdded ≤ clock.sourceTimeAdded' then
      some ⟨splitter, source, sys.passed⟩
    else none
  | .backgroundFunc now readings setAt settings refreshedAt timeAdded refreshed =>
    some ⟨sys.splitter.backgroundFunc now readings setAt settings refreshedAt timeAdded refreshed,
      sys.source, now :: readings ++ sys.passed⟩
  | .sourceBackgroundFunc now readings refreshedAt timeAdded =>
    some ⟨sys.splitter, sys.source.backgroundFunc now readings refreshedAt timeAdded true,
      now :: readings ++ sys.passed⟩
  | .refresh refreshed =>
    some { sys with splitter := { sys.splitter with estimates := refreshed } }
  | .upkeep change =>
    some { sys with splitter := { sys.splitter with
      battery := sys.splitter.battery.upkeep change } }
  | .sourceUpkeep change => some { sys with source := sys.source.upkeep change }

/-- From the last round on, what is scheduled on the source is what is scheduled for the children
together. -/
def SumLaw (sys : SplitSystem n) : Prop :=
  ∀ t : ℤ, (∀ x ∈ sys.passed, x ≤ t) → sys.source.scheduled t = ∑ i, sys.splitter.scheduledOf i t

/-- The other children together are to have one current from the start of a request to its end. -/
def Steady (sys : SplitSystem n) : Action n → Prop
  | .scheduleSetCurrentOf childName r _ =>
    ∀ childId ∈ sys.splitter.nameLookup childName, ∀ t, r.whenToSet ≤ t → t < r.untilWhen →
      sys.splitter.others childId t = sys.splitter.others childId r.whenToSet
  | _ => True

end SplitSystem

namespace Battery

variable {b : Battery}

theorem Queued.upkeep (h : b.Queued) (change : Upkeep) : (b.upkeep change).Queued := by
  cases change with
  | startBackgroundRefresh now timeAdded => exact h.act (.startBackgroundRefresh now timeAdded)
  | stopBackgroundRefresh => exact h.act .stopBackgroundRefresh
  | setMaxStaleness maxStaleness => exact h.act (.setMaxStaleness maxStaleness)

theorem scheduled_upkeep (change : Upkeep) (t : ℤ) :
    (b.upkeep change).scheduled t = b.scheduled t := by
  cases change with
  | startBackgroundRefresh now timeAdded =>
      rw [upkeep, startBackgroundRefresh]
      split_ifs
      · rfl
      · exact scheduled_emplaceRefresh (b := { b with refreshMode := .active }) now timeAdded t
  | stopBackgroundRefresh =>
      rw [upkeep, stopBackgroundRefresh]
      split_ifs <;> rfl
  | setMaxStaleness maxStaleness => rfl

theorem valueAt_upkeep {p : Event → Bool} {initial : ℤ}
    (other : ∀ e, p e = true → e.func ≠ .refresh) (change : Upkeep) (t : ℤ) :
    (b.upkeep change).eventQueue.valueAt Event.timepoint Event.currentMA p initial t =
      b.eventQueue.valueAt Event.timepoint Event.currentMA p initial t := by
  cases change with
  | startBackgroundRefresh now timeAdded =>
      rw [upkeep, startBackgroundRefresh]
      split_ifs
      · rfl
      · exact valueAt_emplaceRefresh (b := { b with refreshMode := .active }) other now timeAdded t
  | stopBackgroundRefresh =>
      rw [upkeep, stopBackgroundRefresh]
      split_ifs <;> rfl
  | setMaxStaleness maxStaleness => rfl

end Battery

namespace BALSplitter

variable {n : ℕ} {sp : BALSplitter n} {childId : Fin n} {r : Request} {timeAdded timeAdded' : ℤ}

theorem queued_afterRequest (h : sp.battery.Queued) :
    (sp.afterRequest timeAdded timeAdded' childId r).battery.Queued :=
  h.replaced ..

theorem sum_afterRequest (childId : Fin n) (h : sp.battery.Queued) (ordered : r.whenToSet ≤ r.untilWhen)
    (clock : timeAdded ≤ timeAdded') (t : ℤ) :
    ∑ i, (sp.afterRequest timeAdded timeAdded' childId r).scheduledOf i t =
      if r.whenToSet ≤ t ∧ t < r.untilWhen then r.targetCurrentMA + sp.others childId t
      else ∑ i, sp.scheduledOf i t := by
  simp only [scheduledOf_afterRequest h ordered clock]
  split_ifs with within
  · simp only [and_iff_left within]
    exact sum_replaced childId r.targetCurrentMA fun i => sp.scheduledOf i t
  · exact Finset.sum_congr rfl fun i _ => if_neg fun both => within both.2

end BALSplitter

namespace SplitSystem

variable {n : ℕ} {sys sys' : SplitSystem n} {action : Action n}

structure Queued (sys : SplitSystem n) : Prop where
  splitter : sys.splitter.battery.Queued
  source : sys.source.Queued

theorem queued_start (childNames : Fin n → String) (estimates : Estimates n)
    (maxStaleness sourceStaleness : ℤ) :
    (start childNames estimates maxStaleness sourceStaleness).Queued :=
  ⟨Battery.queued_new maxStaleness, Battery.queued_new sourceStaleness⟩

theorem Queued.request_spec (h : sys.Queued) {childName : String} {r : Request} {clock : Readings}
    (hstep : sys.step (.scheduleSetCurrentOf childName r clock) = some sys') :
    ∃ childId ∈ sys.splitter.nameLookup childName,
      r.whenToSet ≤ r.untilWhen ∧ ¬ r.whenToSet < clock.sourceNow ∧
      (∀ x ∈ sys.passed, x ≤ clock.sourceNow) ∧ clock.timeAdded ≤ clock.timeAdded' ∧
      clock.sourceTimeAdded ≤ clock.sourceTimeAdded' ∧
      sys' = ⟨sys.splitter.afterRequest clock.timeAdded clock.timeAdded' childId r,
        (sys.source.scheduleSetCurrent (fun _ _ => 0) clock.sourceNow clock.sourceTimeAdded
          clock.sourceTimeAdded' (sys.splitter.forwarded childId r)).2, sys.passed⟩ := by
  rw [step] at hstep
  rcases outcome : sys.splitter.scheduleSetCurrentOf (sys.source.scheduleSetCurrent (fun _ _ => 0)
    clock.sourceNow clock.sourceTimeAdded clock.sourceTimeAdded') sys.source clock.now
    clock.timeAdded clock.timeAdded' childName r with ⟨success, splitter, source⟩
  simp only [outcome] at hstep
  obtain ⟨⟨accepted, ordered, passed, added, sourceAdded⟩, after⟩ :=
    Option.ite_none_right_eq_some.mp hstep
  obtain ⟨childId, known, sourceAccepted, result⟩ := BALSplitter.scheduleSetCurrentOf_spec
    h.splitter ordered ((congrArg Prod.fst outcome).trans accepted)
  obtain ⟨rfl, rfl⟩ := Prod.mk.inj ((congrArg Prod.snd outcome).symm.trans result)
  have inTime : ¬ r.whenToSet < clock.sourceNow :=
    Battery.not_late_of_accepted (r := sys.splitter.forwarded childId r) sourceAccepted
  exact ⟨childId, known, ordered, inTime, passed, added, sourceAdded, (Option.some.inj after).symm⟩

theorem Queued.step (h : sys.Queued) (hstep : sys.step action = some sys') : sys'.Queued := by
  cases action with
  | scheduleSetCurrentOf childName r clock =>
      obtain ⟨childId, -, -, -, -, -, -, rfl⟩ := h.request_spec hstep
      exact ⟨BALSplitter.queued_afterRequest h.splitter, h.source.scheduleSetCurrent ..⟩
  | backgroundFunc now readings setAt settings refreshedAt timeAdded refreshed =>
      obtain rfl := Option.some.inj hstep
      exact ⟨BALSplitter.queued_backgroundFunc h.splitter .., h.source⟩
  | sourceBackgroundFunc now readings refreshedAt timeAdded =>
      obtain rfl := Option.some.inj hstep
      exact ⟨h.splitter, h.source.backgroundFunc ..⟩
  | refresh refreshed =>
      obtain rfl := Option.some.inj hstep
      exact ⟨h.splitter, h.source⟩
  | upkeep change =>
      obtain rfl := Option.some.inj hstep
      exact ⟨h.splitter.upkeep change, h.source⟩
  | sourceUpkeep change =>
      obtain rfl := Option.some.inj hstep
      exact ⟨h.splitter, h.source.upkeep change⟩

theorem sumLaw_start (childNames : Fin n → String) (estimates : Estimates n)
    (maxStaleness sourceStaleness : ℤ) :
    (start childNames estimates maxStaleness sourceStaleness).SumLaw := by
  intro t _
  exact (Finset.sum_eq_zero fun i _ => rfl).symm

theorem SumLaw.of_unchanged (h : sys.SumLaw) (passed : ∀ x ∈ sys.passed, x ∈ sys'.passed)
    (source : ∀ t, (∀ x ∈ sys'.passed, x ≤ t) → sys'.source.scheduled t = sys.source.scheduled t)
    (splitter : ∀ t, (∀ x ∈ sys'.passed, x ≤ t) → ∀ i,
      sys'.splitter.scheduledOf i t = sys.splitter.scheduledOf i t) : sys'.SumLaw := by
  intro t later
  rw [source t later, h t fun x hx => later x (passed x hx)]
  exact Finset.sum_congr rfl fun i _ => (splitter t later i).symm

theorem Queued.sumLaw_request (h : sys.Queued) (law : sys.SumLaw) {childName : String}
    {r : Request} {clock : Readings}
    (hstep : sys.step (.scheduleSetCurrentOf childName r clock) = some sys') :
    sys'.SumLaw ↔ sys.Steady (.scheduleSetCurrentOf childName r clock) := by
  obtain ⟨childId, known, ordered, inTime, passed, added, sourceAdded, rfl⟩ := h.request_spec hstep
  have source (t : ℤ) : (sys.source.scheduleSetCurrent (fun _ _ => 0) clock.sourceNow
      clock.sourceTimeAdded clock.sourceTimeAdded' (sys.splitter.forwarded childId r)).2.scheduled t =
        if r.whenToSet ≤ t ∧ t < r.untilWhen then
          r.targetCurrentMA + sys.splitter.others childId r.whenToSet
        else sys.source.scheduled t :=
    h.source.scheduled_scheduleSetCurrent (r := sys.splitter.forwarded childId r) ordered
      sourceAdded inTime t
  have children := BALSplitter.sum_afterRequest childId h.splitter ordered added
  constructor
  · rintro law' childId' known' t began within
    obtain rfl := Option.mem_unique known known'
    have same := law' t fun x hx => (passed x hx).trans (by omega)
    dsimp only at same
    rw [source, children, if_pos ⟨began, within⟩, if_pos ⟨began, within⟩] at same
    exact (Int.add_left_cancel same).symm
  · intro steady t later
    dsimp only
    rw [source, children]
    split_ifs with within
    · exact congrArg _ (steady childId known t within.1 within.2).symm
    · exact law t later

theorem Queued.sumLaw_step (h : sys.Queued) (law : sys.SumLaw)
    (hstep : sys.step action = some sys') : sys'.SumLaw ↔ sys.Steady action := by
  cases action with
  | scheduleSetCurrentOf childName r clock => exact h.sumLaw_request law hstep
  | backgroundFunc now readings setAt settings refreshedAt timeAdded refreshed =>
      obtain rfl := Option.some.inj hstep
      refine iff_of_true (law.of_unchanged (fun x hx => List.mem_append_right _ hx) (fun _ _ => rfl)
        fun t later i => ?_) trivial
      exact BALSplitter.scheduledOf_backgroundFunc (later now List.mem_cons_self)
        (fun x hx => later x (List.mem_cons_of_mem _ (List.mem_append_left _ hx))) ..
  | sourceBackgroundFunc now readings refreshedAt timeAdded =>
      obtain rfl := Option.some.inj hstep
      refine iff_of_true (law.of_unchanged (fun x hx => List.mem_append_right _ hx)
        (fun t later => ?_) fun _ _ _ => rfl) trivial
      exact h.source.scheduled_backgroundFunc refreshedAt timeAdded (later now List.mem_cons_self)
        fun x hx => later x (List.mem_cons_of_mem _ (List.mem_append_left _ hx))
  | refresh refreshed =>
      obtain rfl := Option.some.inj hstep
      exact iff_of_true (law.of_unchanged (fun _ => id) (fun _ _ => rfl) fun _ _ _ => rfl) trivial
  | upkeep change =>
      obtain rfl := Option.some.inj hstep
      exact iff_of_true (law.of_unchanged (fun _ => id) (fun _ _ => rfl) fun t _ i =>
        Battery.valueAt_upkeep (BALSplitter.ofChild_ne_refresh i) change t) trivial
  | sourceUpkeep change =>
      obtain rfl := Option.some.inj hstep
      exact iff_of_true (law.of_unchanged (fun _ => id)
        (fun t _ => Battery.scheduled_upkeep change t) fun _ _ _ => rfl) trivial

/-- In a run of accepted requests the source always has the sum of the children exactly when the
other children are steady in the interval of each request. -/
theorem sum_law_iff (childNames : Fin n → String) (estimates : Estimates n)
    (maxStaleness sourceStaleness : ℤ) (actions : List (Action n))
    (accepted : StepRun.exec step (start childNames estimates maxStaleness sourceStaleness) actions =
      some sys) :
    StepRun.Always step SumLaw (start childNames estimates maxStaleness sourceStaleness) actions ↔
      StepRun.Along step Steady (start childNames estimates maxStaleness sourceStaleness) actions :=
  StepRun.always_iff_along_of_exec (queued_start childNames estimates maxStaleness sourceStaleness)
    (fun _ _ _ h hstep => h.step hstep)
    (sumLaw_start childNames estimates maxStaleness sourceStaleness)
    (fun _ _ _ h law hstep => h.sumLaw_step law hstep) accepted

def twoChildren : SplitSystem 2 :=
  start (fun i => if i = 0 then "a" else "b")
    ⟨fun _ => 0, fun _ => 500, fun _ => ⟨12, 0, 500, 500, 500, 500, 0⟩⟩ 1000000000 1000000000

/-- One child asks twice, with overlapping intervals, and the other after its second. -/
theorem sum_law_iff_separate :
    let actions := [.scheduleSetCurrentOf "b" ⟨50, true, 20, 40⟩ ⟨0, 0, 1, 1, 1, 2⟩,
      .scheduleSetCurrentOf "b" ⟨70, true, 30, 50⟩ ⟨3, 3, 4, 4, 4, 5⟩,
      .sourceBackgroundFunc 25 [26] 26 27,
      .backgroundFunc 26 [27] 27 [] 28 28 twoChildren.splitter.estimates,
      .scheduleSetCurrentOf "a" ⟨100, true, 50, 60⟩ ⟨29, 29, 30, 30, 30, 31⟩]
    StepRun.Always step SumLaw twoChildren actions ↔ StepRun.Along step Steady twoChildren actions :=
  sum_law_iff _ _ _ _ _ (Option.some_get (by decide +kernel)).symm

/-- One child asks for an interval in which the other is to start. -/
theorem sum_law_overlapping :
    ∃ sys, StepRun.exec step twoChildren
        [.scheduleSetCurrentOf "b" ⟨50, true, 20, 40⟩ ⟨0, 0, 1, 1, 1, 2⟩,
          .scheduleSetCurrentOf "a" ⟨100, true, 10, 30⟩ ⟨3, 3, 4, 4, 4, 5⟩] = some sys ∧
      ¬ sys.SumLaw := by
  obtain ⟨sys, run, values⟩ := Option.map_eq_some_iff.mp (show
    (StepRun.exec step twoChildren
        [.scheduleSetCurrentOf "b" ⟨50, true, 20, 40⟩ ⟨0, 0, 1, 1, 1, 2⟩,
          .scheduleSetCurrentOf "a" ⟨100, true, 10, 30⟩ ⟨3, 3, 4, 4, 4, 5⟩]).map
      (fun sys => (sys.passed, sys.source.scheduled 25, ∑ i, sys.splitter.scheduledOf i 25)) =
        some ([], 100, 150) by decide +kernel)
  simp only [Prod.mk.injEq] at values
  refine ⟨sys, run, fun law => ?_⟩
  have same := law 25 (by simp [values.1])
  rw [values.2.1, values.2.2] at same
  cases same

end SplitSystem

end BatteryOS.V2
