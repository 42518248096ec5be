import BatteryOS.V2.SumLaw

/-! The queue that the children share, seen from one of them. A request of a child touches only
its own events, which carry its number, and the rounds of the background thread make its current
what it has scheduled. When the source refuses, the events stay in the queue. -/

namespace BatteryOS.V2

structure Call (S : Type) where
  childName : String
  request : Request
  now : ℤ
  timeAdded : ℤ
  timeAdded' : ℤ
  answer : S → Request → Bool × S

structure Round (n : ℕ) where
  now : ℤ
  readings : List ℤ
  setAt : ℤ
  settings : List ℤ
  refreshedAt : ℤ
  timeAdded : ℤ
  refreshed : Estimates n

namespace BALSplitter

variable {n : ℕ} {S : Type}

def call (sys : BALSplitter n × S) (c : Call S) : Bool × BALSplitter n × S :=
  sys.1.scheduleSetCurrentOf (c.answer sys.2) sys.2 c.now c.timeAdded c.timeAdded' c.childName
    c.request

def carryOut (sp : BALSplitter n) (round : Round n) : BALSplitter n :=
  sp.backgroundFunc round.now round.readings round.setAt round.settings round.refreshedAt
    round.timeAdded round.refreshed

inductive Action (n : ℕ) (S : Type)
  | call (c : Call S)
  | carryOut (round : Round n)
  | refresh (refreshed : Estimates n)
  | upkeep (change : Upkeep)
  | source (change : S → S)

def act (sys : BALSplitter n × S) : Action n S → BALSplitter n × S
  | .call c => (call sys c).2
  | .carryOut round => (sys.1.carryOut round, sys.2)
  | .refresh refreshed => ({ sys.1 with estimates := refreshed }, sys.2)
  | .upkeep change => ({ sys.1 with battery := sys.1.battery.upkeep change }, sys.2)
  | .source change => (sys.1, change sys.2)

def run (childNames : Fin n → String) (estimates : Estimates n) (maxStaleness : ℤ) (source : S)
    (actions : List (Action n S)) : BALSplitter n × S :=
  actions.foldl act (new childNames estimates maxStaleness, source)

variable {sp : BALSplitter n} {sys sys' : BALSplitter n × S} {c : Call S} {childId : Fin n}
  {r : Request} {timeAdded timeAdded' : ℤ}

/-! ### Any request -/

theorem forwarded_prepare (h : sp.battery.Queued) :
    (sp.prepare timeAdded timeAdded' childId r).2 = sp.forwarded childId r := by
  have upToSet := previewed_eq_scheduledOf childId h r.whenToSet r.untilWhen r.whenToSet
  simp only [prepare, upToSet, sum_replaced]
  rfl

theorem prepare_removed (sp : BALSplitter n) (timeAdded timeAdded' : ℤ) (childId : Fin n)
    (r : Request) : ∃ removed resume,
      (sp.prepare timeAdded timeAdded' childId r).1.battery =
        ((sp.battery.remove removed).emplace timeAdded r.whenToSet .setCurrent
          ⟨r.targetCurrentMA, r.isGreaterThanTarget⟩ childId).emplace timeAdded' r.untilWhen
          .setCurrentEnd resume childId :=
  ⟨_, _, rfl⟩

theorem queued_remove {b : Battery} (h : b.Queued) (removed : List Event) :
    (b.remove removed).Queued :=
  h.of_mem rfl fun _ he => .inl (OrderedSet.mem_of_mem_foldl_erase he)

theorem queued_prepare (h : sp.battery.Queued) :
    (sp.prepare timeAdded timeAdded' childId r).1.battery.Queued := by
  obtain ⟨removed, resume, after⟩ := sp.prepare_removed timeAdded timeAdded' childId r
  rw [after]
  exact ((queued_remove h removed).emplace _ _ _ (by decide) (by decide) _ _).emplace _ _ _
    (by decide) (by decide) _ _

theorem prepare_eventQueue_ne (h : sp.battery.Queued) :
    (sp.prepare timeAdded timeAdded' childId r).1.battery.eventQueue ≠ sp.battery.eventQueue := by
  obtain ⟨removed, resume, after⟩ := sp.prepare_removed timeAdded timeAdded' childId r
  have begun := (queued_remove h removed).emplace .setCurrent
    ⟨r.targetCurrentMA, r.isGreaterThanTarget⟩ childId (by decide) (by decide) timeAdded r.whenToSet
  have ending : ⟨r.untilWhen, timeAdded', sp.battery.currentSequenceNumber + 1, .setCurrentEnd,
      resume.currentMA, resume.isGreaterThan, childId⟩ ∈
        (sp.prepare timeAdded timeAdded' childId r).1.battery.eventQueue := by
    rw [after, begun.mem_emplace (by decide)]
    exact .inr rfl
  intro same
  rw [same] at ending
  have number := h.numbered _ ending (by simp)
  dsimp only at number
  omega

theorem queued_act (h : sys.1.battery.Queued) (action : Action n S) :
    (act sys action).1.battery.Queued := by
  cases action with
  | call c =>
      rw [act, call, scheduleSetCurrentOf]
      split_ifs
      · exact h
      · cases sys.1.nameLookup c.childName with
        | none => exact h
        | some childId =>
            dsimp only
            split_ifs
            · exact h
            · exact queued_prepare h
  | carryOut round => exact queued_backgroundFunc h ..
  | refresh refreshed => exact h
  | upkeep change => exact h.upkeep change
  | source change => exact h

theorem queued_run (childNames : Fin n → String) (estimates : Estimates n) (maxStaleness : ℤ)
    (source : S) (actions : List (Action n S)) :
    (run childNames estimates maxStaleness source actions).1.battery.Queued := by
  unfold run
  induction actions using List.reverseRecOn with
  | nil => exact Battery.queued_new maxStaleness
  | append_singleton before action ih =>
      rw [List.foldl_append]
      exact queued_act ih action

/-! ### A refused request -/

/-- The source accepts what is forwarded for a request that the splitter itself does not refuse. -/
def SourceAccepts (sys : BALSplitter n × S) (c : Call S) : Prop :=
  ¬ c.request.whenToSet < c.now → ∀ childId ∈ sys.1.nameLookup c.childName,
    tooHigh (sys.1.estimates.childrenStatusNow childId) c.request.targetCurrentMA = false →
      (c.answer sys.2 (sys.1.forwarded childId c.request)).1 = true

theorem refused_keeps_queue_iff (h : sys.1.battery.Queued) :
    ((call sys c).1 = false →
      (call sys c).2.1.battery.eventQueue = sys.1.battery.eventQueue) ↔ SourceAccepts sys c := by
  rw [call, scheduleSetCurrentOf, SourceAccepts]
  split_ifs with late
  · exact iff_of_true (fun _ => rfl) fun inTime => absurd late inTime
  rw [imp_iff_right late]
  cases known : sys.1.nameLookup c.childName with
  | none => exact iff_of_true (fun _ => rfl) fun childId other => by cases other
  | some childId =>
      dsimp only
      split_ifs with high
      · refine iff_of_true (fun _ => rfl) fun childId' same => ?_
        obtain rfl := Option.some.inj same
        simp [high]
      · rw [forwarded_prepare h]
        dsimp only
        rw [imp_iff_not (prepare_eventQueue_ne h), Bool.not_eq_false]
        refine ⟨fun accepted childId' same _ => ?_, fun accepts => ?_⟩
        · obtain rfl := Option.some.inj same
          exact accepted
        · exact accepts childId rfl (by simpa using high)

/-- A request that returns 0 leaves the queue as it was exactly when it is not for the source that
it fails. -/
theorem failed_call_leaves_queue_iff (childNames : Fin n → String) (estimates : Estimates n)
    (maxStaleness : ℤ) (source : S) (actions : List (Action n S)) (c : Call S) :
    let sys := run childNames estimates maxStaleness source actions
    ((call sys c).1 = false →
        (call sys c).2.1.battery.eventQueue = sys.1.battery.eventQueue) ↔ SourceAccepts sys c :=
  refused_keeps_queue_iff (queued_run childNames estimates maxStaleness source actions)

/-- The source reads its clock after the splitter, when the request is late. -/
theorem failed_call_changes_queue :
    let source : Battery := .new 1000000000
    let sys : BALSplitter 1 × Battery := run (fun _ => "a")
      ⟨fun _ => 0, fun _ => 500, fun _ => ⟨12, 0, 500, 500, 100, 100, 0⟩⟩ 1000000000 source []
    let c : Call Battery := ⟨"a", ⟨50, true, 3, 10⟩, 2, 2, 2,
      fun source r => source.scheduleSetCurrent (fun _ _ => 0) 4 4 4 r⟩
    ¬ ((call sys c).1 = false →
      (call sys c).2.1.battery.eventQueue = sys.1.battery.eventQueue) := by
  intro source sys c leaves
  have same := congrArg OrderedSet.elems (leaves (by decide +kernel))
  exact absurd same (by decide +kernel)

/-! ### Accepted requests -/

def acceptedCall (sys : BALSplitter n × S) (c : Call S) : Option (BALSplitter n × S) :=
  if (call sys c).1 = true ∧ c.request.whenToSet ≤ c.request.untilWhen ∧
      c.timeAdded ≤ c.timeAdded' then
    some (call sys c).2
  else none

def override (nameLookup : String → Option (Fin n)) (profile : Fin n → ℤ → ℤ) (c : Call S) :
    Fin n → ℤ → ℤ :=
  fun i t =>
    if nameLookup c.childName = some i ∧ c.request.whenToSet ≤ t ∧ t < c.request.untilWhen then
      c.request.targetCurrentMA
    else profile i t

/-- A request changes the events of one child only, and its profile to the target in the interval
only. -/
structure Overridden (sp sp' : BALSplitter n) (childId : Fin n) (r : Request) : Prop where
  others : ∀ i ≠ childId, ∀ e, ofChild i e = true →
    (e ∈ sp'.battery.eventQueue ↔ e ∈ sp.battery.eventQueue)
  within : ∀ t, r.whenToSet ≤ t → t < r.untilWhen →
    sp'.scheduledOf childId t = r.targetCurrentMA
  before : ∀ t, t < r.whenToSet → sp'.scheduledOf childId t = sp.scheduledOf childId t
  after : ∀ t, r.untilWhen ≤ t → sp'.scheduledOf childId t = sp.scheduledOf childId t

theorem acceptedCall_spec (h : sys.1.battery.Queued) (accepted : acceptedCall sys c = some sys') :
    ∃ childId ∈ sys.1.nameLookup c.childName, c.request.whenToSet ≤ c.request.untilWhen ∧
      c.timeAdded ≤ c.timeAdded' ∧
      sys'.1 = sys.1.afterRequest c.timeAdded c.timeAdded' childId c.request := by
  obtain ⟨⟨success, ordered, clock⟩, after⟩ := Option.ite_none_right_eq_some.mp accepted
  obtain rfl := Option.some.inj after
  obtain ⟨childId, known, -, result⟩ := scheduleSetCurrentOf_spec h ordered success
  exact ⟨childId, known, ordered, clock, congrArg Prod.fst result⟩

theorem queued_acceptedCall (h : sys.1.battery.Queued) (accepted : acceptedCall sys c = some sys') :
    sys'.1.battery.Queued := by
  obtain ⟨childId, -, -, -, after⟩ := acceptedCall_spec h accepted
  rw [after]
  exact queued_afterRequest h

theorem overridden_acceptedCall (h : sys.1.battery.Queued)
    (accepted : acceptedCall sys c = some sys') :
    ∃ childId ∈ sys.1.nameLookup c.childName, Overridden sys.1 sys'.1 childId c.request := by
  obtain ⟨childId, known, ordered, clock, after⟩ := acceptedCall_spec h accepted
  have profile (t : ℤ) :
      (sys.1.afterRequest c.timeAdded c.timeAdded' childId c.request).scheduledOf childId t =
        if childId = childId ∧ c.request.whenToSet ≤ t ∧ t < c.request.untilWhen then
          c.request.targetCurrentMA
        else sys.1.scheduledOf childId t := scheduledOf_afterRequest h ordered clock childId t
  rw [after]
  refine ⟨childId, known, fun i other e kind => mem_afterRequest_other h other kind,
    fun t began within => ?_, fun t early => ?_, fun t ended => ?_⟩
  · rw [profile, if_pos ⟨rfl, began, within⟩]
  · rw [profile, if_neg fun h => absurd h.2.1 early.not_ge]
  · rw [profile, if_neg fun h => absurd h.2.2 ended.not_gt]

theorem scheduledOf_acceptedCall (h : sys.1.battery.Queued)
    (accepted : acceptedCall sys c = some sys') :
    sys'.1.scheduledOf = override sys.1.nameLookup sys.1.scheduledOf c := by
  obtain ⟨childId, known, ordered, clock, after⟩ := acceptedCall_spec h accepted
  funext i t
  rw [after, scheduledOf_afterRequest h ordered clock, override, known]
  exact if_congr (by rw [Option.some_inj, eq_comm]) rfl rfl

theorem childNames_acceptedCall (h : sys.1.battery.Queued)
    (accepted : acceptedCall sys c = some sys') : sys'.1.childNames = sys.1.childNames := by
  obtain ⟨childId, -, -, -, after⟩ := acceptedCall_spec h accepted
  rw [after]
  rfl

theorem nameLookup_congr {sp sp' : BALSplitter n} (same : sp'.childNames = sp.childNames) :
    sp'.nameLookup = sp.nameLookup := by
  funext childName
  rw [nameLookup, nameLookup, same]

theorem scheduledOf_calls {start : BALSplitter n × S} {calls : List (Call S)}
    (h : start.1.battery.Queued) (accepted : StepRun.exec acceptedCall start calls = some sys) :
    sys.1.battery.Queued ∧ sys.1.childNames = start.1.childNames ∧
      sys.1.scheduledOf =
        calls.foldl (override start.1.nameLookup) start.1.scheduledOf := by
  induction calls using List.reverseRecOn generalizing sys with
  | nil =>
      obtain rfl := Option.some.inj accepted
      exact ⟨h, rfl, rfl⟩
  | append_singleton before c ih =>
      rw [StepRun.exec_concat] at accepted
      obtain ⟨s, run, last⟩ := Option.bind_eq_some_iff.mp accepted
      obtain ⟨queued, names, profile⟩ := ih run
      refine ⟨queued_acceptedCall queued last, (childNames_acceptedCall queued last).trans names, ?_⟩
      rw [scheduledOf_acceptedCall queued last, nameLookup_congr names, profile, List.foldl_append]
      rfl

/-! ### Rounds -/

end BALSplitter

def Round.clock {n : ℕ} (round : Round n) : List ℤ := round.now :: round.readings

/-- The reading at which the loop of the background thread stops. -/
def lastReading : ℤ → List ℤ → List Event → ℤ
  | now, _, [] => now
  | now, readings, top :: rest =>
    if top.timepoint > now then now
    else lastReading (readings.head?.getD now) readings.tail rest

section Due

variable {now : ℤ} {readings : List ℤ} {events : List Event}

theorem pairwise_tail (clock : (now :: readings).Pairwise (· ≤ ·)) :
    (readings.head?.getD now :: readings.tail).Pairwise (· ≤ ·) ∧
      now ≤ readings.head?.getD now := by
  obtain ⟨first, rest⟩ := List.pairwise_cons.mp clock
  cases readings with
  | nil => exact ⟨List.pairwise_singleton _ _, le_rfl⟩
  | cons x xs => exact ⟨rest, first x List.mem_cons_self⟩

theorem le_lastReading (clock : (now :: readings).Pairwise (· ≤ ·)) :
    now ≤ lastReading now readings events := by
  induction events generalizing now readings with
  | nil => exact le_rfl
  | cons top rest ih =>
      rw [lastReading]
      split_ifs
      · exact le_rfl
      · obtain ⟨clock, le⟩ := pairwise_tail clock
        exact le.trans (ih clock)

theorem lastReading_mem : lastReading now readings events ∈ now :: readings := by
  induction events generalizing now readings with
  | nil => exact List.mem_cons_self
  | cons top rest ih =>
      rw [lastReading]
      split_ifs
      · exact List.mem_cons_self
      · cases readings with
        | nil => exact ih
        | cons x xs => exact List.mem_cons_of_mem now ih

theorem dueEvents_eq_filter (sorted : events.Pairwise fun x y => x.timepoint ≤ y.timepoint)
    (clock : (now :: readings).Pairwise (· ≤ ·)) :
    dueEvents now readings events =
      events.filter fun e => e.timepoint ≤ lastReading now readings events := by
  induction events generalizing now readings with
  | nil => rfl
  | cons top rest ih =>
      have tail := (List.pairwise_cons.mp sorted).2
      by_cases future : top.timepoint > now
      · rw [dueEvents, lastReading, if_pos future, if_pos future]
        exact (List.filter_eq_nil_iff.mpr fun e he =>
          Bool.eq_false_iff.mp (beyond_of_sorted sorted future e he)).symm
      · obtain ⟨later, le⟩ := pairwise_tail clock
        have due : top.timepoint ≤
            lastReading (readings.head?.getD now) readings.tail rest :=
          (not_lt.mp future).trans (le.trans (le_lastReading later))
        rw [dueEvents, lastReading, if_neg future, if_neg future, ih tail later,
          List.filter_cons_of_pos (by simpa using due)]

end Due

namespace BALSplitter

variable {n : ℕ} {S : Type} {sp : BALSplitter n} {round : Round n} {t : ℤ} {i : Fin n}

def stopsAt (sp : BALSplitter n) (round : Round n) : ℤ :=
  lastReading round.now round.readings sp.battery.eventQueue.elems

/-- The splitter within a round, when the events up to a time have been carried out. -/
def upTo (sp : BALSplitter n) (round : Round n) (t : ℤ) : BALSplitter n :=
  let (events, b) := sp.battery.takeDue round.now round.readings
  { sp with battery := b }.setAll round.setAt round.settings
    ((events.filter Event.setsCurrent).filter fun e => e.timepoint ≤ t)

theorem upTo_current (clock : round.clock.Pairwise (· ≤ ·)) (within : t ≤ sp.stopsAt round)
    (i : Fin n) : (sp.upTo round t).childrenCurrentNow i = sp.scheduledOf i t := by
  rw [upTo, Battery.takeDue]
  dsimp only
  rw [setAll_current, scheduledOf, OrderedSet.valueAt, OrderedSet.lastWhere,
    dueEvents_eq_filter sp.battery.eventQueue.sorted_timepoint clock, List.filter_filter,
    List.filter_filter, List.filter_filter]
  congr 3
  refine List.filter_congr fun e _ => Bool.eq_iff_iff.mpr ?_
  change t ≤ lastReading round.now round.readings sp.battery.eventQueue.elems at within
  simp only [ofChild, Bool.and_eq_true, decide_eq_true_eq]
  constructor
  · rintro ⟨⟨⟨own, past⟩, kind⟩, -⟩
    exact ⟨⟨kind, own⟩, past⟩
  · rintro ⟨⟨kind, own⟩, past⟩
    exact ⟨⟨⟨own, past⟩, kind⟩, past.trans within⟩

theorem carryOut_current (clock : round.clock.Pairwise (· ≤ ·)) (i : Fin n) :
    (sp.carryOut round).childrenCurrentNow i = sp.scheduledOf i (sp.stopsAt round) := by
  have due := dueEvents_eq_filter sp.battery.eventQueue.sorted_timepoint clock
  have all : ((dueEvents round.now round.readings sp.battery.eventQueue.elems).filter
      Event.setsCurrent).filter (fun e => e.timepoint ≤ sp.stopsAt round) =
        (dueEvents round.now round.readings sp.battery.eventQueue.elems).filter
          Event.setsCurrent := by
    refine List.filter_eq_self.mpr fun e he => ?_
    rw [due] at he
    exact (List.mem_filter.mp (List.mem_of_mem_filter he)).2
  rw [← upTo_current clock le_rfl, upTo, Battery.takeDue]
  dsimp only
  rw [all, carryOut, backgroundFunc, Battery.takeDue]
  dsimp only
  split_ifs <;> rfl

theorem scheduledOf_rounds {rounds : List (Round n)}
    (past : ∀ x ∈ rounds.flatMap Round.clock, x ≤ t) :
    (rounds.foldl carryOut sp).scheduledOf i t = sp.scheduledOf i t := by
  induction rounds generalizing sp with
  | nil => rfl
  | cons round rest ih =>
      rw [List.flatMap_cons] at past
      rw [List.foldl_cons, ih fun x hx => past x (List.mem_append_right _ hx)]
      exact scheduledOf_backgroundFunc (past _ (List.mem_append_left _ List.mem_cons_self))
        (fun x hx => past x (List.mem_append_left _ (List.mem_cons_of_mem _ hx))) ..

/-- Each request overrides the profile of its child in its interval and leaves the events of the
others as they are, and the rounds of the background thread give every child what its profile says
at each time they come to. -/
theorem children_follow_profiles (childNames : Fin n → String) (estimates : Estimates n)
    (maxStaleness : ℤ) (source : S) (actions : List (Action n S)) (calls : List (Call S))
    (sys : BALSplitter n × S)
    (accepted : StepRun.exec acceptedCall
      (run childNames estimates maxStaleness source actions) calls = some sys) :
    let start := run childNames estimates maxStaleness source actions
    let profile := calls.foldl (override start.1.nameLookup) start.1.scheduledOf
    (∀ before c, before ++ [c] <+: calls → ∀ s s', StepRun.exec acceptedCall start before = some s →
      acceptedCall s c = some s' →
        ∃ childId ∈ s.1.nameLookup c.childName, Overridden s.1 s'.1 childId c.request) ∧
    sys.1.scheduledOf = profile ∧
    ∀ rounds round, ((rounds ++ [round]).flatMap Round.clock).Pairwise (· ≤ ·) →
      let sp := rounds.foldl carryOut sys.1
      ∀ i, (∀ t, (∀ x ∈ rounds.flatMap Round.clock, x ≤ t) → t ≤ sp.stopsAt round →
          (sp.upTo round t).childrenCurrentNow i = profile i t) ∧
        (sp.carryOut round).childrenCurrentNow i = profile i (sp.stopsAt round) := by
  intro start profile
  have queued : start.1.battery.Queued := queued_run childNames estimates maxStaleness source actions
  have after := (scheduledOf_calls queued accepted).2.2
  refine ⟨fun before c _ s s' first last =>
    overridden_acceptedCall (scheduledOf_calls queued first).1 last, after, ?_⟩
  intro rounds round clock sp i
  rw [List.flatMap_append, List.flatMap_singleton] at clock
  obtain ⟨-, clock, ordered⟩ := List.pairwise_append.mp clock
  have reached (t : ℤ) (past : ∀ x ∈ rounds.flatMap Round.clock, x ≤ t) :
      sp.scheduledOf i t = profile i t := by
    rw [scheduledOf_rounds past, after]
  refine ⟨fun t past within => ?_, ?_⟩
  · rw [upTo_current clock within, reached t past]
  · rw [carryOut_current clock]
    exact reached _ fun x hx => ordered x hx _ lastReading_mem

/-- Two children ask for overlapping intervals, and a round comes to both of them. -/
theorem children_follow_profiles_overlapping :
    let source : Battery := .new 1000000000
    let answer (source : Battery) (r : Request) := source.scheduleSetCurrent (fun _ _ => 0) 1 1 1 r
    let estimates : Estimates 2 :=
      ⟨fun _ => 0, fun _ => 500, fun _ => ⟨12, 0, 500, 500, 500, 500, 0⟩⟩
    ∃ sys, StepRun.exec acceptedCall
        (run (fun i => if i = 0 then "a" else "b") estimates 1000000000 source [])
        [⟨"b", ⟨50, true, 20, 40⟩, 0, 0, 0, answer⟩, ⟨"a", ⟨100, true, 10, 30⟩, 0, 0, 0, answer⟩] =
          some sys ∧
      (sys.1.carryOut ⟨15, [25], 26, [], 27, 28, estimates⟩).childrenCurrentNow 0 = 100 := by
  intro source answer estimates
  obtain ⟨sys, run, stops⟩ := Option.map_eq_some_iff.mp (show (StepRun.exec acceptedCall
      (run (fun i => if i = 0 then "a" else "b") estimates 1000000000 source [])
      [⟨"b", ⟨50, true, 20, 40⟩, 0, 0, 0, answer⟩,
        ⟨"a", ⟨100, true, 10, 30⟩, 0, 0, 0, answer⟩]).map
      (fun sys => sys.1.stopsAt ⟨15, [25], 26, [], 27, 28, estimates⟩) = some 25 by decide +kernel)
  have follows := (children_follow_profiles (fun i => if i = 0 then "a" else "b") estimates
    1000000000 source [] _ sys run).2.2 [] ⟨15, [25], 26, [], 27, 28, estimates⟩ (by decide) 0
  refine ⟨sys, run, follows.2.trans ?_⟩
  rw [List.foldl_nil, stops]
  decide +kernel

end BALSplitter

end BatteryOS.V2
