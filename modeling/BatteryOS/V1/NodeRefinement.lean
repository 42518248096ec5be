import BatteryOS.V1.NodeSplitter

/-! The policies of a node as the policies by themselves. A call to the node may reach the batteries
of a policy from several sides and more than once. Each of these times is a call that the policy
may also get by itself, and the rest of the call leaves it alone. -/

namespace BatteryOS.V1

namespace BOS

open Fallible StepRun

def refining (policyname : String) (entries : List (String × Entry)) : Guard BOS where
  holds s := s.seen .outline = entries
  allows s s' := s'.seen .outline = s.seen .outline ∧ Refines policyname s s'
  refl _ := ⟨rfl, .of_still fun _ h => h⟩
  trans _ _ _ first second := ⟨second.1.trans first.1, first.2.trans second.2⟩
  keeps _ _ holds allowed := allowed.1.trans holds

section Rules

variable {policyname q name : String} {s : BOS} {entries : List (String × Entry)}
  {clock : ℕ → ℚ} {limit : ℕ} {f : BOSNode → BOSNode} {entry : Entry} {α : Type}

theorem runsAt_refining {x : NodeCall α}
    (outline : Runs False (within .outline entries fun _ => True) x)
    (hs : s.seen .outline = entries)
    (refines : ∀ r s', outcome x s = some (r, s') → Refines policyname s s') :
    RunsAt False (refining policyname entries) x s :=
  ⟨fun asked => asked.elim, fun p run => ⟨((outline s hs).2 p run).1, refines p.1 p.2 run⟩⟩

theorem runs_bosTime_refining : Runs False (refining policyname entries) (bosTime clock) :=
  fun _ hs => runsAt_refining (runs_bosTime clock) hs fun _ _ run => by
    cases run
    exact .of_still fun _ h => h.of_same rfl fun _ => rfl

theorem runs_modifyNode_refining
    (outline : ∀ node, View.outline.see (f node) = View.outline.see node)
    (apart : ∀ s : BOS, s.seen .outline = entries → ∀ entry, s.directory.find? name = some entry →
      (∀ srcname p, name = policyname → entry.node = .policy srcname p →
        f entry.node = entry.node) ∧
      partMeter policyname (f entry.node) = partMeter policyname entry.node) :
    Runs False (refining policyname entries) (modifyNode name f) :=
  Runs.modify fun s hs => by
    have allowed : (still policyname entries).allows s ⟨s.directory.modify name f, s.readings⟩ :=
      still_modify (seen_modify s.readings fun entry _ => outline entry.node) (apart s hs)
    exact ⟨allowed.1, .of_still allowed.2⟩

theorem runs_onMeter_refining (hs : s.seen .outline = entries)
    (found : s.directory.find? name = some entry)
    (other : partMeter policyname entry.node = none) (g : Metered → Metered) :
    Runs False (refining policyname entries) (modifyNode name (.onMeter g)) := by
  refine runs_modifyNode_refining (outline_onMeter g) fun s' hs' later there => ⟨?_, ?_⟩
  · intro srcname p _ same
    rw [same]
    rfl
  · obtain ⟨found', there', same, -⟩ := find?_of_seen (hs'.trans hs.symm) found
    rw [there, Option.some_inj] at there'
    rw [partMeter_onMeter, there', partMeter_of_outline same.symm other]
    rfl

theorem runs_updateMeter_refining (hs : s.seen .outline = entries)
    (found : s.directory.find? name = some entry)
    (other : partMeter policyname entry.node = none) (endcurrent newcurrent : ℚ) :
    Runs False (refining policyname entries) (updateMeter clock name endcurrent newcurrent) :=
  Runs.bind runs_bosTime_refining fun _ => runs_onMeter_refining hs found other _

theorem runs_setMeter_refining (hs : s.seen .outline = entries)
    (found : s.directory.find? name = some entry)
    (other : partMeter policyname entry.node = none) (newvalue : ℚ) :
    Runs False (refining policyname entries) (setMeter name newvalue) :=
  Runs.bind (runs_lookupBattery name) fun _ => runs_onMeter_refining hs found other _

theorem runs_readPseudo_refining (now : ℚ) :
    Runs False (refining policyname entries) (modifyNode name (.readPseudo now)) := by
  refine runs_modifyNode_refining (fun node => ?_) fun _ _ entry _ => ⟨?_, ?_⟩
  · exact View.design_finer_outline _ _ (View.setup_finer_design _ _ (setup_readPseudo now node))
  · intro srcname p _ same
    rw [same]
    rfl
  · rcases entry.node with ⟨metered, _ | _ | _ | _⟩ | _ <;> rfl

theorem runs_onStatus_refining (g : BatteryStatus → BatteryStatus) :
    Runs False (refining policyname entries) (modifyNode name (.onStatus g)) := by
  refine runs_modifyNode_refining (outline_onStatus g) fun _ _ entry _ => ⟨?_, ?_⟩
  · intro srcname p _ same
    rw [same]
    rfl
  · rcases entry.node with ⟨metered, _ | _ | _ | _⟩ | _ <;> rfl

theorem runs_onPolicy_refining (ne : q ≠ policyname)
    (g : ProportionalPolicy → ProportionalPolicy) :
    Runs False (refining policyname entries) (modifyNode q (.onPolicy g)) := by
  refine runs_modifyNode_refining (outline_onPolicy g) fun _ _ entry _ => ⟨?_, ?_⟩
  · exact fun _ _ own => absurd own ne
  · rcases entry.node with ⟨metered, _ | _ | _ | _⟩ | _ <;> rfl

theorem ne_of_partMeter {metered : Metered}
    (other : partMeter policyname (.battery metered (.splitter q)) = none) : q ≠ policyname := by
  rintro rfl
  rw [partMeter, if_pos rfl] at other
  cases other

theorem runsAt_lookup_refining {rest : BOSNode → NodeCall α}
    (outline : Runs False (within .outline entries fun _ => True) (lookup name >>= rest))
    (hs : s.seen .outline = entries)
    (own : ∀ metered parents,
      s.directory.find? name = some ⟨.battery metered (.splitter policyname), parents⟩ →
        ∀ r s', outcome (lookup name >>= rest) s = some (r, s') → Refines policyname s s')
    (others : ∀ entry, s.directory.find? name = some entry →
      partMeter policyname entry.node = none →
        RunsAt False (refining policyname entries) (rest entry.node) s) :
    RunsAt False (refining policyname entries) (lookup name >>= rest) s := by
  by_cases part : ∃ metered parents,
      s.directory.find? name = some ⟨.battery metered (.splitter policyname), parents⟩
  · obtain ⟨metered, parents, found⟩ := part
    exact runsAt_refining outline hs (own metered parents found)
  · refine runsAt_lookup fun entry found => others entry found ?_
    cases there : partMeter policyname entry.node with
    | none => rfl
    | some metered =>
        refine absurd ⟨metered, entry.parents, ?_⟩ part
        rw [found, ← sources_of_partMeter there]

end Rules

section Calls

variable {policyname q name : String} {s : BOS} {entries : List (String × Entry)}
  {clock : ℕ → ℚ} {limit : ℕ}

theorem grounded_of_seen (grounded : Grounded (rowsOf entries)) (hs : s.seen .outline = entries) :
    Grounded s.topology := by
  rwa [← hs, rowsOf_seen] at grounded

theorem find?_splitter {s s' : BOS} (same : s'.seen .outline = s.seen .outline)
    {metered : Metered} {parents : Finset String}
    (found : s.directory.find? name = some ⟨.battery metered (.splitter q), parents⟩) :
    ∃ metered' parents',
      s'.directory.find? name = some ⟨.battery metered' (.splitter q), parents'⟩ := by
  obtain ⟨later, there, alike, -⟩ := find?_of_seen same found
  obtain ⟨node, parents'⟩ := later
  rcases node with ⟨metered', _ | _ | _ | q'⟩ | _
  · cases alike
  · cases alike
  · cases alike
  · cases alike
    exact ⟨metered', parents', there⟩
  · cases alike

theorem runs_getStatus_refining (grounded : Grounded (rowsOf entries)) (name : String) :
    Runs False (refining policyname entries) (getStatus clock limit name) := by
  induction limit generalizing name with
  | zero => exact Runs.diverge fun asked => asked
  | succ limit ih =>
      intro s hs
      have outline : Runs False (within .outline entries fun _ => True)
        (getStatus clock (limit + 1) name) := asks_getStatus clock deep_false name
      rw [getStatus] at outline ⊢
      refine runsAt_lookup_refining outline hs (fun metered parents found r s' run => ?_)
        fun entry found other => ?_
      · rw [← getStatus] at run
        exact getStatus_refines (grounded_of_seen grounded hs) found run
      have updates (c c' : ℚ) : Runs False (refining policyname entries)
        (updateMeter clock name c c') := runs_updateMeter_refining hs found other c c'
      obtain ⟨node, parents⟩ := entry
      rcases node with ⟨metered, voltage | status | ⟨voltage, tolerance, srcnames⟩ | q⟩ |
        ⟨srcname, p⟩
      · exact Runs.pure _ s hs
      · exact Runs.bind runs_bosTime_refining (fun now =>
          Runs.bind (runs_readPseudo_refining now) fun _ => Runs.pure _) s hs
      · exact Runs.bind (runs_aggregate voltage fun a _ => ih a) (fun status =>
          Runs.bind (updates _ _) fun _ => Runs.pure _) s hs
      · exact Runs.bind (runs_policyStatus name fun _ _ a _ _ _ => ih a) (fun status =>
          Runs.bind (updates _ _) fun _ => Runs.pure _) s hs
      · exact Runs.throw (α := BatteryStatus) Failure.typeError s hs

theorem runs_setCurrent_outline (name : String) (targetCurrent : ℚ) :
    Runs False (within .outline entries fun _ => True)
      (setCurrent clock limit name targetCurrent) := by
  change Runs False _ (call clock limit (.setCurrent name targetCurrent))
  exact runs_uses trivial deep_false

theorem runs_setCurrent_refining (grounded : Grounded (rowsOf entries)) (name : String)
    (targetCurrent : ℚ) :
    Runs False (refining policyname entries) (setCurrent clock limit name targetCurrent) := by
  induction limit generalizing name targetCurrent with
  | zero => exact Runs.diverge fun asked => asked
  | succ limit ih =>
      intro s hs
      have outline : Runs False (within .outline entries fun _ => True)
        (setCurrent clock (limit + 1) name targetCurrent) :=
          runs_setCurrent_outline name targetCurrent
      have ask (a : String) : Runs False (refining policyname entries) (getStatus clock limit a) :=
        runs_getStatus_refining grounded a
      have self : Runs False (refining policyname entries) (getStatus clock (limit + 1) name) :=
        runs_getStatus_refining grounded name
      rw [setCurrent] at outline ⊢
      refine runsAt_lookup_refining outline hs (fun metered parents found r s' run => ?_)
        fun entry found other => ?_
      · rw [outcome_bind, outcome_lookup_ok.mpr ⟨rfl, parents, found⟩] at run
        exact setCurrent_refines (grounded_of_seen grounded hs) found run
      have updates (c c' : ℚ) : Runs False (refining policyname entries)
        (updateMeter clock name c c') := runs_updateMeter_refining hs found other c c'
      obtain ⟨node, parents⟩ := entry
      rcases node with ⟨metered, voltage | status | ⟨voltage, tolerance, srcnames⟩ | q⟩ |
        ⟨srcname, p⟩
      · dsimp only
        unfold setNull
        split_ifs
        · exact Runs.throw _ s hs
        · exact Runs.pure _ s hs
      · exact runs_setPseudo self (runs_onStatus_refining _) updates s hs
      · exact runs_setAggregator targetCurrent self (fun a _ => ask a) (fun a _ => ih a) updates
          s hs
      · exact Runs.bind self (fun status => Runs.bind (runs_setPolicy
          (fun _ _ a _ _ _ => ask a) (fun _ _ a _ _ _ => ih a)
          (runs_onPolicy_refining (ne_of_partMeter other) _)) fun _ =>
          Runs.bind self fun _ => updates _ _) s hs
      · exact Runs.throw (α := Unit) Failure.typeError s hs

theorem runs_refresh_refining (grounded : Grounded (rowsOf entries)) (name : String) :
    Runs False (refining policyname entries) (refresh clock limit name) := by
  induction limit generalizing name with
  | zero => exact Runs.diverge fun asked => asked
  | succ limit ih =>
      intro s hs
      have self : Runs False (refining policyname entries) (getStatus clock (limit + 1) name) :=
        runs_getStatus_refining grounded name
      rw [refresh]
      refine runsAt_lookup fun entry found => ?_
      obtain ⟨node, parents⟩ := entry
      rcases node with ⟨metered, voltage | status | ⟨voltage, tolerance, srcnames⟩ | q⟩ |
        ⟨srcname, p⟩
      · exact Runs.pure _ s hs
      · exact Runs.throw (α := Unit) Failure.notImplemented s hs
      · exact Runs.bind self (fun status => runs_updateMeter_refining hs found rfl _ _) s hs
      · refine Runs.bind (ih q) (fun _ s₁ hs₁ => ?_) s hs
        by_cases own : q = policyname
        · subst own
          obtain ⟨metered₁, parents₁, found₁⟩ := find?_splitter (hs₁.trans hs.symm) found
          refine runsAt_refining ?_ hs₁ fun r s' run =>
            refresh_refines (grounded_of_seen grounded hs₁) found₁ run
          exact Runs.bind (asks_getStatus clock deep_false name) fun status =>
            runs_updateMeter clock trivial (fun _ _ _ _ g => outline_onMeter g _) _ _
        · refine Runs.bind self (fun status => runs_updateMeter_refining hs found ?_ _ _) s₁ hs₁
          rw [partMeter, if_neg own]
      · exact Runs.pure _ s hs

theorem partMeter_of_ne {node : BOSNode}
    (other : ∀ metered q, node ≠ .battery metered (.splitter q)) :
    partMeter policyname node = none := by
  cases part : partMeter policyname node with
  | none => rfl
  | some metered => exact absurd (sources_of_partMeter part) (other metered policyname)

theorem runs_resetMeter_refining (grounded : Grounded (rowsOf entries)) (name : String) :
    Runs False (refining policyname entries) (resetMeter (getStatus clock limit) name) := by
  intro s hs
  have asks (a : String) : Runs False (refining policyname entries) (getStatus clock limit a) :=
    runs_getStatus_refining grounded a
  refine runsAt_resetMeter hs asks (fun metered q parents found => ?_) fun entry found other =>
    runs_setMeter_refining hs found (partMeter_of_ne other)
  by_cases own : q = policyname
  · subst own
    refine runsAt_refining ?_ hs fun r s' run =>
      resetMeter_refines (grounded_of_seen grounded hs) run
    exact runs_policyResetMeter (asks_getStatus clock deep_false) (runs_setMeter name)
  · refine runs_policyResetMeter asks (runs_setMeter_refining hs found ?_) s hs
    rw [partMeter, if_neg own]

theorem runs_addChild_refining (grounded : Grounded (rowsOf entries)) (ne : q ≠ policyname)
    (name : String) (targetStatus : BatteryStatus) (fromName : String) :
    Runs False (refining policyname entries)
      (addChild (getStatus clock limit) q name targetStatus fromName) :=
  runs_addChild (runs_getStatus_refining grounded) (runs_onPolicy_refining ne)
    (runs_resetMeter_refining grounded fromName) targetStatus

end Calls

/-! The calls that make something add to the directory as well. -/

section Makers

variable {policyname q name : String} {s s' : BOS} {clock : ℕ → ℚ} {limit : ℕ}
  {node : BOSNode} {parents : Finset String} {α : Type} {p : Except Failure α × BOS}

theorem refines_of_runs {x : NodeCall α}
    (hx : Runs False (refining policyname (s.seen .outline)) x) (run : outcome x s = some p) :
    Refines policyname s p.2 :=
  ((hx s rfl).2 p run).2

theorem refines_readings (readings : ℕ) : Refines policyname s ⟨s.directory, readings⟩ :=
  .of_still fun _ h => h.of_same rfl fun _ => rfl

theorem refines_addNode_bind {rest : Unit → NodeCall α}
    (run : outcome (addNode name node parents >>= rest) s = some p)
    (other : partMeter policyname node = none)
    (later : ∀ directory, s.directory.addNode name node parents = some directory →
      outcome (rest ()) ⟨directory, s.readings⟩ = some p →
        Refines policyname ⟨directory, s.readings⟩ p.2) : Refines policyname s p.2 := by
  rw [outcome_addNode_bind] at run
  cases added : s.directory.addNode name node parents with
  | none =>
      rw [added] at run
      cases run
      exact .of_still fun _ h => h
  | some directory =>
      rw [added] at run
      intro t registered h
      exact later directory added run t registered (h.addOther added other s.readings)

theorem refines_addNode {p : Except Failure Unit × BOS}
    (run : outcome (addNode name node parents) s = some p)
    (other : partMeter policyname node = none) : Refines policyname s p.2 := by
  rw [← bind_pure_unit (x := addNode name node parents)] at run
  refine refines_addNode_bind run other fun directory _ last => ?_
  cases last
  exact .of_still fun _ h => h

theorem refines_aggregator {sources : List String} {voltage tolerance : ℚ} {metered : Metered}
    {p : Except Failure Unit × BOS} (grounded : Grounded (rowsOf (s.seen .outline)))
    (run : outcome (do
      checkVoltages (getStatus clock limit) voltage tolerance sources
      let status ← aggregate (getStatus clock limit) voltage sources
      let now ← bosTime clock
      addNode name (.battery ((metered.updateMeter now status.current status.current).setMeter
        status.stateOfCharge) (.aggregator voltage tolerance sources)) sources.toFinset) s =
          some p) : Refines policyname s p.2 := by
  have ask (a : String) : Runs False (refining policyname (s.seen .outline))
    (getStatus clock limit a) := runs_getStatus_refining grounded a
  have checks : Runs False (refining policyname (s.seen .outline))
      (checkVoltages (getStatus clock limit) voltage tolerance sources) :=
    runs_checkVoltages voltage tolerance fun a _ => ask a
  have reads : Runs False (refining policyname (s.seen .outline))
      (aggregate (getStatus clock limit) voltage sources) :=
    runs_aggregate voltage fun a _ => ask a
  rcases outcome_bind_eq_some.mp run with ⟨e, s₁, checked, rfl⟩ | ⟨_, s₁, checked, run⟩
  · have kept := refines_of_runs checks checked
    exact kept
  obtain ⟨hs₁, first⟩ := (checks s rfl).2 _ checked
  rcases outcome_bind_eq_some.mp run with ⟨e, s₂, read, rfl⟩ | ⟨status, s₂, read, run⟩
  · exact first.trans ((reads s₁ hs₁).2 _ read).2
  · have second := ((reads s₁ hs₁).2 _ read).2
    rw [outcome_bosTime_bind] at run
    exact (first.trans second).trans ((refines_readings _).trans (refines_addNode run rfl))

/-- A call to the node is, to a policy, some calls that it may also get by itself. -/
theorem step_refines {op : Operation} (grounded : Grounded s.topology) (named : Named s op)
    (next : step clock limit s op = some s') : Refines policyname s s' := by
  obtain ⟨p, run, rfl⟩ := Option.map_eq_some_iff.mp next
  have grounded' : Grounded (rowsOf (s.seen .outline)) := by rwa [rowsOf_seen]
  cases op with
  | makeNull name voltage =>
      rw [call, makeNull, outcome_newBattery_bind] at run
      exact (refines_readings _).trans (refines_addNode run rfl)
  | makePseudo name status =>
      rw [call, makePseudo, outcome_newBattery_bind, outcome_bosTime_bind] at run
      exact (refines_readings _).trans (refines_addNode run rfl)
  | makeAggregator name sources voltage tolerance =>
      rw [call, makeAggregator, outcome_newBattery_bind] at run
      refine (refines_readings (s.readings + 1)).trans ?_
      split_ifs at run
      · cases run
        exact .of_still fun _ h => h
      · exact refines_aggregator (s := ⟨s.directory, s.readings + 1⟩) grounded' run
  | makeSplitterPolicy q parent initname =>
      by_cases own : q = policyname
      · subst own
        intro t registered h
        rw [call, makeSplitterPolicy, outcome_addNode_bind,
          BOSDirectory.addNode_eq_none.mpr h.mem_keys] at run
        cases run
        exact ⟨[], t, rfl, h⟩
      · refine refines_addNode_bind run rfl fun directory added run => ?_
        have free := (BOSDirectory.addNode_eq_some added).1
        rw [outcome_newBattery_bind] at run
        refine (refines_readings (s.readings + 1)).trans ?_
        have grounded₁ := grounded_addNode grounded added
          (List.forall_mem_singleton.mpr (named.resolve_left free)) (s.readings + 1)
        refine refines_addNode_bind run (if_neg own) fun directory' added' run => ?_
        have grounded₂ := grounded_addNode grounded₁ added' (List.forall_mem_singleton.mpr (by
          rw [keys_addNode added]
          exact List.mem_append_right _ List.mem_cons_self)) (s.readings + 1)
        exact refines_of_runs (runs_resetMeter_refining (by rwa [rowsOf_seen]) initname) run
  | makeSplitterBattery batteryname q tgtStatus fromName =>
      by_cases own : q = policyname
      · subst own
        exact makeSplitterBattery_refines grounded run
      · rw [call, makeSplitterBattery, outcome_newBattery_bind] at run
        refine (refines_readings (s.readings + 1)).trans ?_
        refine refines_addNode_bind run (if_neg own) fun directory added run => ?_
        have free := (BOSDirectory.addNode_eq_some added).1
        have grounded₁ := grounded_addNode grounded added
          (List.forall_mem_singleton.mpr (named.resolve_left free)) (s.readings + 1)
        have rows : Grounded (rowsOf (seen .outline ⟨directory, s.readings + 1⟩)) := by
          rwa [rowsOf_seen]
        exact refines_of_runs (Runs.bind
          (runs_addChild_refining rows own batteryname tgtStatus fromName)
          fun _ => runs_resetMeter_refining rows batteryname) run
  | getStatus name =>
      have kept : Runs False (refining policyname (s.seen .outline))
          (call clock limit (.getStatus name)) :=
        Runs.bind (runs_getStatus_refining grounded' name) fun _ => Runs.pure _
      exact refines_of_runs kept run
  | setCurrent name current =>
      exact refines_of_runs (runs_setCurrent_refining grounded' name current) run
  | refresh name => exact refines_of_runs (runs_refresh_refining grounded' name) run
  | setStatus name status =>
      refine refines_of_runs (runs_setStatus (fun s₁ hs₁ metered old parents found => ?_)
        (runs_onStatus_refining _)) run
      exact runs_updateMeter_refining hs₁ found rfl

end Makers

/-! A new policy with its first battery. -/

section Started

open SplitterBattery (start Registered)

variable {policyname parent initname : String} {s s' : BOS} {clock : ℕ → ℚ} {limit : ℕ}
  {directory directory' : BOSDirectory} {metered : Metered}

def unset (initname : String) (metered : Metered) : SplitterSystem where
  policy := .init initname
  batteries := OrderedMap.set ∅ initname metered

theorem start_silent (time : ℚ) :
    start (answers [] [time] true) initname = unset initname (.new time) :=
  congrArg Prod.snd (run_resetMeter_error (e := .key) rfl)

theorem registered_unset (time : ℚ) : Registered (unset initname (.new time)) := by
  rw [← start_silent]
  exact SplitterBattery.registered_start _ _

theorem find?_init_scales : (ProportionalPolicy.init initname).scales.find? initname =
    some .one := by
  rw [ProportionalPolicy.init, OrderedMap.find?_set, if_pos rfl]

theorem start_read (time : ℚ) (total : BatteryStatus) :
    start (answers [total] [time] true) initname = (unset initname (.new time)).setMeter initname
      (total.stateOfCharge * Scale.one.stateOfCharge) :=
  congrArg Prod.snd (run_resetMeter_ok (registered_unset time) find?_init_scales rfl)

theorem partMeter_of_grounded (grounded : Grounded s.topology)
    (fresh : policyname ∉ s.directory.keys) {n : String} {entry : Entry}
    (found : s.directory.find? n = some entry) : partMeter policyname entry.node = none := by
  cases part : partMeter policyname entry.node with
  | none => rfl
  | some metered =>
      have row := row_of_find? found
      rw [sources_of_partMeter part] at row
      have old := grounded.mem_keys ⟨_, row, List.mem_cons_self⟩
      rw [topology_keys] at old
      exact absurd old fresh

theorem represents_unset (grounded : Grounded s.topology)
    (added : s.directory.addNode policyname (.policy parent (.init initname)) {parent} =
      some directory)
    (added' : directory.addNode initname (.battery metered (.splitter policyname)) {policyname} =
      some directory') (readings : ℕ) :
    Represents policyname ⟨directory', readings⟩ (unset initname metered) := by
  have fresh := (BOSDirectory.addNode_eq_some added).1
  have fresh' := (BOSDirectory.addNode_eq_some added').1
  rw [keys_addNode added, List.mem_append, List.mem_singleton, not_or] at fresh'
  have look (n : String) : directory'.find? n =
      if n = initname then some ⟨.battery metered (.splitter policyname), {policyname}⟩
      else if n = policyname then some ⟨.policy parent (.init initname), {parent}⟩
      else s.directory.find? n := by
    rw [find?_addNode (s := ⟨directory, 0⟩) added', find?_addNode added]
  refine ⟨⟨parent, {parent}, ?_⟩, fun n => ?_⟩
  · rw [look, if_neg (Ne.symm fresh'.2), if_pos rfl]
    rfl
  · rw [look, unset, OrderedMap.find?_set]
    split_ifs
    · exact (if_pos rfl).symm
    · rfl
    · cases found : s.directory.find? n with
      | none => rfl
      | some entry => exact (partMeter_of_grounded grounded fresh found).symm

theorem makeSplitterPolicy_represents (grounded : Grounded s.topology)
    (named : parent ∈ s.directory.keys) (fresh : policyname ∉ s.directory.keys)
    (fresh' : initname ∉ s.directory.keys) (ne : initname ≠ policyname)
    (next : step clock limit s (.makeSplitterPolicy policyname parent initname) = some s') :
    ∃ w, Represents policyname s' (start w initname) := by
  obtain ⟨p, run, rfl⟩ := Option.map_eq_some_iff.mp next
  rcases seen_addNode_bind run with ⟨taken, -⟩ | ⟨-, directory, added, run⟩
  · exact absurd taken fresh
  rw [outcome_newBattery_bind] at run
  rcases seen_addNode_bind run with ⟨taken, -⟩ | ⟨-, directory', added', run⟩
  · rw [keys_addNode added, List.mem_append, List.mem_singleton] at taken
    exact absurd taken (not_or.mpr ⟨fresh', ne⟩)
  have grounded₁ := grounded_addNode grounded added (List.forall_mem_singleton.mpr named)
    (s.readings + 1)
  have grounded₂ := grounded_addNode grounded₁ added' (List.forall_mem_singleton.mpr (by
    rw [keys_addNode added]
    exact List.mem_append_right _ List.mem_cons_self)) (s.readings + 1)
  have h := represents_unset grounded added added' (s.readings + 1)
  have registered : Registered (unset initname (.new (clock s.readings))) := registered_unset _
  rw [outcome_resetMeter_part h registered
    (ProportionalPolicy.mem_parts.mpr ⟨_, find?_init_scales⟩)] at run
  rcases policyResetMeter_part grounded₂ h registered run with
    ⟨-, kept⟩ | ⟨total, scale, -, found, kept⟩
  · exact ⟨answers [] [clock s.readings] true, by rwa [start_silent]⟩
  · have one : scale = .one := Option.some.inj (found.symm.trans find?_init_scales)
    rw [one] at kept
    exact ⟨answers [total] [clock s.readings] true, by rwa [start_read]⟩

end Started

/-! Whole runs. -/

section Runs

variable {policyname : String} {s s' : BOS} {clock : ℕ → ℚ} {limit : ℕ} {op : Operation}
  {ops : List Operation}

def IsPolicy (s : BOS) (policyname : String) : Prop :=
  ∃ srcname p parents, s.directory.find? policyname = some ⟨.policy srcname p, parents⟩

/-- The policy and its batteries are in a state that they also reach by themselves. -/
def Alone (s : BOS) (policyname : String) : Prop :=
  ∃ w initname ops t,
    exec SplitterBattery.step (SplitterBattery.start w initname) ops = some t ∧
      Represents policyname s t

def FirstFree (s : BOS) : Operation → Prop
  | .makeSplitterPolicy policyname _ initname => policyname ∈ s.directory.keys ∨
      initname ∉ s.directory.keys ∧ initname ≠ policyname
  | _ => True

theorem Alone.step (alone : Alone s policyname) (grounded : Grounded s.topology)
    (named : Named s op) (next : step clock limit s op = some s') : Alone s' policyname := by
  obtain ⟨w, initname, ops, t, run, h⟩ := alone
  have registered := SplitterBattery.registered_of_reachable run
  obtain ⟨ops', t', run', h'⟩ := step_refines grounded named next t registered h
  exact ⟨w, initname, ops ++ ops', t', by rw [exec_append, run, Option.bind_some, run'], h'⟩

theorem isPolicy_of_outline {a : BOSNode} {srcname : String} {p : ProportionalPolicy}
    (same : View.outline.see (.policy srcname p) = View.outline.see a) :
    ∃ p', a = .policy srcname p' := by
  rcases a with ⟨metered, _ | _ | _ | _⟩ | ⟨srcname', p'⟩
  · cases same
  · cases same
  · cases same
  · cases same
  · cases same
    exact ⟨p', rfl⟩

theorem Made.policy {keys : List String} {news : List (String × Entry)} {srcname : String}
    {p : ProportionalPolicy} {parents : Finset String} (made : Made keys op news)
    (new : (policyname, (⟨View.outline.see (.policy srcname p), parents⟩ : Entry)) ∈ news) :
    ∃ parent initname, op = .makeSplitterPolicy policyname parent initname := by
  cases op with
  | makeNull name voltage =>
      rw [made] at new
      split_ifs at new <;> simp [newEntry, View.outline] at new
  | makePseudo name status =>
      rw [made] at new
      split_ifs at new <;> simp [newEntry, View.outline] at new
  | makeAggregator name sources voltage voltageTolerance =>
      rcases made with rfl | ⟨-, -, rfl⟩ <;> simp [newEntry, View.outline] at new
  | makeSplitterPolicy policyname' parent initname =>
      rw [made] at new
      split_ifs at new <;> simp [newEntry, View.outline] at new
      · exact ⟨parent, initname, by rw [new.1]⟩
      · exact ⟨parent, initname, by rw [new.1]⟩
  | makeSplitterBattery batteryname policyname' tgtStatus fromName =>
      rw [made] at new
      split_ifs at new <;> simp [newEntry, View.outline] at new
  | getStatus name =>
      rw [show news = [] from made] at new
      cases new
  | setCurrent name current =>
      rw [show news = [] from made] at new
      cases new
  | refresh name =>
      rw [show news = [] from made] at new
      cases new
  | setStatus name status =>
      rw [show news = [] from made] at new
      cases new

theorem isPolicy_step (next : step clock limit s op = some s') (policy : IsPolicy s' policyname) :
    IsPolicy s policyname ∨ policyname ∉ s.directory.keys ∧
      ∃ parent initname, op = .makeSplitterPolicy policyname parent initname := by
  obtain ⟨news, made, seen⟩ := step_made next
  obtain ⟨srcname, p, parents, found⟩ := policy
  cases there : s.directory.find? policyname with
  | some entry =>
      left
      obtain ⟨later, found', same, -⟩ := find?_of_subset (v := .outline)
        (by rw [seen]; exact List.subset_append_left _ _) there
      cases found.symm.trans found'
      obtain ⟨node, parents⟩ := entry
      obtain ⟨p', rfl⟩ := isPolicy_of_outline same
      exact ⟨srcname, p', parents, there⟩
  | none =>
      right
      have fresh := BOSDirectory.find?_eq_none.mp there
      have mem := seen_of_find? (v := .outline) found
      rw [seen, List.mem_append] at mem
      have new := mem.resolve_left fun h => fresh (by
        rw [← seen_keys .outline]
        exact List.mem_map_of_mem h)
      exact ⟨fresh, made.policy new⟩

theorem not_alone (grounded : Grounded s.topology) {parent initname : String}
    (fresh : policyname ∉ s.directory.keys)
    (taken : ¬ (initname ∉ s.directory.keys ∧ initname ≠ policyname))
    (next : step clock limit s (.makeSplitterPolicy policyname parent initname) = some s') :
    IsPolicy s' policyname ∧ ¬ Alone s' policyname := by
  obtain ⟨p, run, rfl⟩ := Option.map_eq_some_iff.mp next
  rcases seen_addNode_bind run with ⟨taken, -⟩ | ⟨-, directory, added, run⟩
  · exact absurd taken fresh
  have taken' : initname ∈ directory.keys := by
    rw [keys_addNode added, List.mem_append, List.mem_singleton]
    by_contra free
    exact taken (not_or.mp free)
  rw [outcome_newBattery_bind, outcome_addNode_bind, BOSDirectory.addNode_eq_none.mpr taken']
    at run
  cases run
  have there : directory.find? policyname = some ⟨.policy parent (.init initname), {parent}⟩ := by
    rw [find?_addNode added, if_pos rfl]
  refine ⟨⟨_, _, _, there⟩, fun alone => ?_⟩
  obtain ⟨w, initname', ops, t, reached, h⟩ := alone
  have registered := SplitterBattery.registered_of_reachable reached
  obtain ⟨metered, part⟩ := registered.battery initname (by
    rw [← h.policy_eq there]
    exact ProportionalPolicy.mem_parts.mpr ⟨_, find?_init_scales⟩)
  obtain ⟨parents, found⟩ := h.battery part
  rw [find?_addNode added] at found
  split_ifs at found with own
  · cases found
  · have none := partMeter_of_grounded grounded fresh found
    rw [partMeter, if_pos rfl] at none
    cases none

def PoliciesAlone (s : BOS) : Prop := ∀ policyname, IsPolicy s policyname → Alone s policyname

theorem policiesAlone_step_iff (grounded : Grounded s.topology) (alone : PoliciesAlone s)
    (named : Named s op) (next : step clock limit s op = some s') :
    PoliciesAlone s' ↔ FirstFree s op := by
  constructor
  · intro all
    cases op with
    | makeSplitterPolicy policyname parent initname =>
        by_cases fresh : policyname ∈ s.directory.keys
        · exact .inl fresh
        · right
          by_contra taken
          obtain ⟨policy, not_alone⟩ := not_alone grounded fresh taken next
          exact not_alone (all policyname policy)
    | _ => trivial
  · intro free policyname policy
    rcases isPolicy_step next policy with old | ⟨fresh, parent, initname, rfl⟩
    · exact (alone policyname old).step grounded named next
    · obtain ⟨fresh', ne⟩ := free.resolve_left fresh
      obtain ⟨w, h⟩ := makeSplitterPolicy_represents grounded (named.resolve_left fresh) fresh
        fresh' ne next
      exact ⟨w, initname, [], _, rfl, h⟩

/-- In the runs where splitters are made from what is there and each policy can be given its first
battery, and only in these, every policy is at all times as it also gets by itself. -/
theorem policies_alone_iff (run : exec (step clock limit) init ops = some s) :
    Always (step clock limit) (fun s => Sound s ∧ PoliciesAlone s) init ops ↔
      Along (step clock limit) (fun s op => Named s op ∧ FirstFree s op) init ops := by
  have none : PoliciesAlone init := by
    rintro policyname ⟨srcname, p, parents, found⟩
    cases found
  refine always_iff_along_of_exec (I := fun _ => True) trivial (fun _ _ _ _ _ => trivial)
    ⟨sound_init, none⟩ (fun s op s' _ h next => ?_) run
  constructor
  · rintro ⟨sound, alone⟩
    have named := (step_sound_iff h.1 next).mp sound
    exact ⟨named, (policiesAlone_step_iff h.1.before h.2 named next).mp alone⟩
  · rintro ⟨named, free⟩
    exact ⟨(step_sound_iff h.1 next).mpr named,
      (policiesAlone_step_iff h.1.before h.2 named next).mpr free⟩

/-- The policy and its half of the pack are as they also get by themselves. -/
theorem policies_alone_iff_stack : ∃ s, exec (step (fun n => n) 9) init stack = some s ∧
    (Always (step (fun n => n) 9) (fun s => Sound s ∧ PoliciesAlone s) init stack ↔
      Along (step (fun n => n) 9) (fun s op => Named s op ∧ FirstFree s op) init stack) := by
  obtain ⟨s, run⟩ := Option.isSome_iff_exists.mp
    (show (exec (step (fun n => n) 9) init stack).isSome = true by decide +kernel)
  exact ⟨s, run, policies_alone_iff run⟩

end Runs

end BOS

end BatteryOS.V1
