import BatteryOS.Library.StepRun
import BatteryOS.V1.NodeFrame

/-! Runs of calls to a V1 node. Each node looks up names that were in the directory before it,
provided that the calls that make splitters name what is there, and then no call nests deeper than
there are nodes. -/

namespace BatteryOS.V1

namespace BOS

open Fallible StepRun

section Makers

variable {total : Prop} {clock : ℕ → ℚ} {entries : List (String × Entry)} {s : BOS}
  {name policyname : String} {limit : ℕ} {reach : String → Prop}
  {ask : String → NodeCall BatteryStatus}

def Asks (total : Prop) (entries : List (String × Entry)) (ask : String → NodeCall BatteryStatus) :
    Prop :=
  ∀ a, Runs total (within .outline entries fun _ => True) (ask a)

theorem outline_onMeter (g : Metered → Metered) (node : BOSNode) :
    View.outline.see (node.onMeter g) = View.outline.see node :=
  View.design_finer_outline _ _ (design_onMeter g node)

theorem outline_onPolicy (g : ProportionalPolicy → ProportionalPolicy) (node : BOSNode) :
    View.outline.see (node.onPolicy g) = View.outline.see node := by
  rcases node with ⟨metered, _ | _ | _ | _⟩ | _ <;> rfl

theorem outline_onStatus (g : BatteryStatus → BatteryStatus) (node : BOSNode) :
    View.outline.see (node.onStatus g) = View.outline.see node := by
  rcases node with ⟨metered, _ | _ | _ | _⟩ | _ <;> rfl

theorem runs_setMeter (name : String) (newvalue : ℚ) :
    Runs total (within .outline entries fun _ => True) (setMeter name newvalue) :=
  Runs.bind (runs_lookupBattery name) fun _ =>
    runs_modifyNode trivial fun _ _ _ _ => outline_onMeter _ _

theorem runs_policyResetMeter {G : Guard BOS} (asks : ∀ a, Runs total G (ask a))
    (sets : ∀ x, Runs total G (setMeter name x)) :
    Runs total G (policyResetMeter ask policyname name) :=
  fun _ hs => runsAt_lookupPolicy hs fun srcname _ _ _ =>
    Runs.bind (asks srcname) (fun _ => Runs.bind (runs_value _) fun _ => sets _) _ hs

theorem runsAt_resetMeter {G : Guard BOS} (hs : G.holds s) (asks : ∀ a, Runs total G (ask a))
    (policy : ∀ metered policyname parents,
      s.directory.find? name = some ⟨.battery metered (.splitter policyname), parents⟩ →
        RunsAt total G (policyResetMeter ask policyname name) s)
    (sets : ∀ entry, s.directory.find? name = some entry →
      (∀ metered policyname, entry.node ≠ .battery metered (.splitter policyname)) →
        ∀ x, Runs total G (setMeter name x)) : RunsAt total G (resetMeter ask name) s := by
  have reset (meter : ∀ x, Runs total G (setMeter name x)) : RunsAt total G (do
      let status ← ask name
      setMeter name status.stateOfCharge) s :=
    Runs.bind (asks name) (fun _ => meter _) s hs
  refine runsAt_lookup fun entry found => ?_
  obtain ⟨node, parents⟩ := entry
  rcases node with ⟨metered, voltage | status | ⟨voltage, tolerance, srcnames⟩ | policyname⟩ |
    ⟨srcname, p⟩
  · exact reset (sets _ found fun _ _ h => by cases h)
  · exact reset (sets _ found fun _ _ h => by cases h)
  · exact reset (sets _ found fun _ _ h => by cases h)
  · exact policy metered policyname parents found
  · exact Runs.throw (α := Unit) Failure.typeError s hs

theorem runs_resetMeter (asks : Asks total entries ask) (name : String) :
    Runs total (within .outline entries fun _ => True) (resetMeter ask name) :=
  fun s hs => runsAt_resetMeter hs asks
    (fun _ _ _ _ => runs_policyResetMeter asks (runs_setMeter name) s hs)
    fun _ _ _ => runs_setMeter name

theorem runs_addChild {G : Guard BOS} {fromName : String} (asks : ∀ a, Runs total G (ask a))
    (changes : ∀ f, Runs total G (modifyNode policyname (.onPolicy f)))
    (resets : Runs total G (resetMeter ask fromName)) (targetStatus : BatteryStatus) :
    Runs total G (addChild ask policyname name targetStatus fromName) := by
  intro s hs
  refine runsAt_lookupPolicy hs fun srcname p parents _ => ?_
  dsimp only
  split_ifs
  · exact Runs.throw _ s hs
  · refine Runs.bind (asks fromName) (fun fromStatus => ?_) s hs
    split_ifs
    · exact Runs.throw _
    · refine Runs.bind (asks srcname) fun total => Runs.bind (runs_value _) fun scale =>
        Runs.bind (changes _) fun _ s' hs' => ?_
      exact runsAt_lookupPolicy hs' fun _ _ _ _ => Runs.bind (runs_value _) (fun _ =>
        Runs.bind (runs_value _) fun _ => Runs.bind (changes _) fun _ => resets) s' hs'
  · exact Runs.throw _ s hs

theorem runs_addChild_resetMeter (asks : Asks total entries ask) (targetStatus : BatteryStatus)
    (fromName : String) : Runs total (within .outline entries fun _ => True) (do
      addChild ask policyname name targetStatus fromName
      resetMeter ask name) :=
  Runs.bind (runs_addChild asks
    (fun _ => runs_modifyNode trivial fun _ _ _ _ => outline_onPolicy _ _)
    (runs_resetMeter asks fromName) targetStatus) fun _ => runs_resetMeter asks name

theorem runs_checkVoltages {G : Guard BOS} {srcnames : List String} (voltage tolerance : ℚ)
    (asks : ∀ a ∈ srcnames, Runs total G (ask a)) :
    Runs total G (checkVoltages ask voltage tolerance srcnames) := by
  refine Runs.forM fun a ha => Runs.bind (runs_lookupBattery a) fun _ =>
    Runs.bind (asks a ha) fun status => ?_
  split_ifs
  · exact Runs.pure _
  · exact Runs.throw _

end Makers

section Outcomes

variable {clock : ℕ → ℚ} {s : BOS} {name policyname batteryname parent initname : String}
  {limit : ℕ} {α : Type}

theorem outcome_bosTime_bind (rest : ℚ → NodeCall α) :
    outcome (bosTime clock >>= rest) s =
      outcome (rest (clock s.readings)) ⟨s.directory, s.readings + 1⟩ := rfl

theorem outcome_newBattery_bind (rest : Metered → NodeCall α) :
    outcome (newBattery clock >>= rest) s =
      outcome (rest (.new (clock s.readings))) ⟨s.directory, s.readings + 1⟩ := rfl

theorem outcome_addNode_bind (node : BOSNode) (parents : Finset String)
    (rest : Unit → NodeCall α) :
    outcome (addNode name node parents >>= rest) s =
      match s.directory.addNode name node parents with
      | none => some (.error (.raised .nameTaken), s)
      | some directory => outcome (rest ()) ⟨directory, s.readings⟩ := by
  rw [outcome_bind, addNode, outcome_get_bind]
  cases s.directory.addNode name node parents <;> rfl

theorem outcome_addNode (node : BOSNode) (parents : Finset String) :
    outcome (addNode name node parents) s =
      match s.directory.addNode name node parents with
      | none => some (.error (.raised .nameTaken), s)
      | some directory => some (.ok (), ⟨directory, s.readings⟩) := by
  rw [← bind_pure_unit (x := addNode name node parents)]
  exact outcome_addNode_bind node parents fun _ => pure ()

theorem seen_addNode (v : View) {node : BOSNode} {parents : Finset String}
    {directory : BOSDirectory}
    (added : s.directory.addNode name node parents = some directory) (readings : ℕ) :
    seen v ⟨directory, readings⟩ = s.seen v ++ [(name, ⟨v.see node, parents⟩)] := by
  rw [seen, (BOSDirectory.addNode_eq_some added).2, List.map_append]
  rfl

theorem keys_addNode {node : BOSNode} {parents : Finset String} {directory : BOSDirectory}
    (added : s.directory.addNode name node parents = some directory) :
    directory.keys = s.directory.keys ++ [name] := by
  rw [BOSDirectory.keys, (BOSDirectory.addNode_eq_some added).2, List.map_append]
  rfl

end Outcomes

/-! What a call adds to the directory. -/

section Made

variable {clock : ℕ → ℚ} {s : BOS} {limit : ℕ} {α : Type}

def newEntry (name : String) (node : BOSNode) (parents : Finset String) : String × Entry :=
  (name, ⟨View.outline.see node, parents⟩)

/-- The new entries after a call. An aggregator is not made where one of the calls to its sources
raises. -/
def Made (keys : List String) : Operation → List (String × Entry) → Prop
  | .makeNull name voltage, news => news = if name ∈ keys then [] else
      [newEntry name (.battery View.noMeter (.null voltage)) ∅]
  | .makePseudo name status, news => news = if name ∈ keys then [] else
      [newEntry name (.battery View.noMeter (.pseudo status)) ∅]
  | .makeAggregator name sources voltage voltageTolerance, news => news = [] ∨
      name ∉ keys ∧ (∀ a ∈ sources, a ∈ keys) ∧ news =
        [newEntry name (.battery View.noMeter (.aggregator voltage voltageTolerance sources))
          sources.toFinset]
  | .makeSplitterPolicy policyname parent initname, news => news =
      if policyname ∈ keys then [] else
        newEntry policyname (.policy parent ⟨∅, ∅⟩) {parent} ::
          if initname ∈ keys ++ [policyname] then [] else
            [newEntry initname (.battery View.noMeter (.splitter policyname)) {policyname}]
  | .makeSplitterBattery batteryname policyname _ _, news => news =
      if batteryname ∈ keys then [] else
        [newEntry batteryname (.battery View.noMeter (.splitter policyname)) {policyname}]
  | .getStatus _, news => news = []
  | .setCurrent _ _, news => news = []
  | .refresh _, news => news = []
  | .setStatus _ _, news => news = []

theorem deep_false {entries : List (String × Entry)} (name : String) :
    Deep False entries limit name :=
  fun asked => asked.elim

theorem asks_getStatus {total : Prop} {entries : List (String × Entry)} (clock : ℕ → ℚ)
    (deep : ∀ a, Deep total entries limit a) : Asks total entries (getStatus clock limit) :=
  fun a => runs_reach (runs_getStatus_of_finer clock
    (fun _ _ same => View.design_finer_outline _ _ (View.setup_finer_design _ _ same)) (deep a))
    fun _ _ => trivial

theorem runs_setStatus {total : Prop} {G : Guard BOS} {name : String} {status : BatteryStatus}
    (updates : ∀ s, G.holds s → ∀ metered old parents,
      s.directory.find? name = some ⟨.battery metered (.pseudo old), parents⟩ →
        ∀ c c', Runs total G (updateMeter clock name c c'))
    (assigns : Runs total G (modifyNode name (.onStatus fun _ => status))) :
    Runs total G (setStatus clock name status) := by
  intro s hs
  refine runsAt_lookup fun entry found => ?_
  obtain ⟨node, parents⟩ := entry
  rcases node with ⟨metered, voltage | old | ⟨voltage, tolerance, srcnames⟩ | policyname⟩ |
    ⟨srcname, p⟩
  · exact Runs.throw (α := Unit) Failure.attributeError s hs
  · exact Runs.bind (updates s hs metered old parents found _ _) (fun _ => assigns) s hs
  · exact Runs.throw (α := Unit) Failure.attributeError s hs
  · exact Runs.throw (α := Unit) Failure.attributeError s hs
  · exact Runs.throw (α := Unit) Failure.attributeError s hs

def Uses : Operation → Prop
  | .getStatus _ => True
  | .setCurrent _ _ => True
  | .refresh _ => True
  | .setStatus _ _ => True
  | _ => False

theorem runs_uses {total : Prop} {entries : List (String × Entry)} {op : Operation}
    (uses : Uses op) (deep : ∀ a, Deep total entries limit a) :
    Runs total (within .outline entries fun _ => True) (call clock limit op) := by
  cases op with
  | getStatus name => exact Runs.bind (asks_getStatus clock deep name) fun _ => Runs.pure _
  | setCurrent name current =>
      refine runs_within View.design_finer_outline (fun _ h => h) fun s hs =>
        runs_reach (runs_setCurrent clock ((deep name).of_rows ?_) current) fun _ _ => trivial
      rw [rowsOf_seen, ← rowsOf_seen .outline, hs]
  | refresh name =>
      refine runs_within (fun _ _ same => View.design_finer_outline _ _
        (View.setup_finer_design _ _ same)) (fun _ h => h) fun s hs =>
        runs_reach (runs_refresh clock ((deep name).of_rows ?_)) fun _ _ => trivial
      rw [rowsOf_seen, ← rowsOf_seen .outline, hs]
  | setStatus name status =>
      exact runs_setStatus (fun _ _ _ _ _ _ c c' => runs_updateMeter clock trivial
          (fun _ _ _ _ g => outline_onMeter g _) c c')
        (runs_modifyNode trivial fun _ _ _ _ => outline_onStatus _ _)
  | _ => exact uses.elim

theorem seen_of_runs {x : NodeCall α} {p : Except Failure α × BOS}
    (hx : Runs False (within .outline (s.seen .outline) fun _ => True) x)
    (run : outcome x s = some p) : p.2.seen .outline = s.seen .outline :=
  ((hx s rfl).2 p run).1

theorem seen_addNode_bind {name : String} {node : BOSNode} {parents : Finset String}
    {rest : Unit → NodeCall α} {p : Except Failure α × BOS}
    (run : outcome (addNode name node parents >>= rest) s = some p) :
    name ∈ s.directory.keys ∧ p.2.seen .outline = s.seen .outline ∨
      name ∉ s.directory.keys ∧ ∃ directory,
        s.directory.addNode name node parents = some directory ∧
          outcome (rest ()) ⟨directory, s.readings⟩ = some p := by
  rw [outcome_addNode_bind] at run
  cases added : s.directory.addNode name node parents with
  | none =>
      rw [added] at run
      cases run
      exact .inl ⟨BOSDirectory.addNode_eq_none.mp added, rfl⟩
  | some directory =>
      rw [added] at run
      exact .inr ⟨(BOSDirectory.addNode_eq_some added).1, directory, rfl, run⟩

theorem seen_addNode_last {name : String} {node : BOSNode} {parents : Finset String}
    {p : Except Failure Unit × BOS} (run : outcome (addNode name node parents) s = some p) :
    p.2.seen .outline = s.seen .outline ++
      if name ∈ s.directory.keys then [] else [newEntry name node parents] := by
  rw [← bind_pure_unit (x := addNode name node parents)] at run
  rcases seen_addNode_bind run with ⟨taken, same⟩ | ⟨free, directory, added, run⟩
  · rw [if_pos taken, List.append_nil, same]
  · cases run
    rw [if_neg free, seen_addNode _ added]
    rfl

theorem keys_of_seen {v : View} {s' : BOS} (same : s'.seen v = s.seen v) :
    s'.directory.keys = s.directory.keys := by
  rw [← topology_keys, topology_of_seen same, topology_keys]

theorem mem_keys_of_checkVoltages {ask : String → NodeCall BatteryStatus} {voltage tolerance : ℚ}
    {sources : List String} {s' : BOS} (asks : Asks False (s.seen .outline) ask)
    (run : outcome (checkVoltages ask voltage tolerance sources) s = some (.ok (), s')) :
    ∀ a ∈ sources, a ∈ s.directory.keys := by
  refine forall_of_forM (G := within .outline (s.seen .outline) fun _ => True)
    (fun a ha => ?_) (fun a ha t t' ht each => ?_) rfl run
  · refine Runs.bind (runs_lookupBattery a) fun _ => Runs.bind (asks a) fun status => ?_
    split_ifs
    · exact Runs.pure _
    · exact Runs.throw _
  · have keys : t.directory.keys = s.directory.keys := keys_of_seen ht
    rw [← keys]
    by_contra absent
    rw [← BOSDirectory.find?_eq_none] at absent
    rw [lookupBattery, lookup, bind_assoc, bind_assoc, outcome_get_bind, absent] at each
    cases each

theorem aggregator_made {name : String} {sources : List String} {voltage tolerance : ℚ}
    {metered : Metered} {p : Except Failure Unit × BOS}
    (run : outcome (do
      checkVoltages (getStatus clock limit) voltage tolerance sources
      let status ← aggregate (getStatus clock limit) voltage sources
      let now ← bosTime clock
      addNode name (.battery ((metered.updateMeter now status.current status.current).setMeter
        status.stateOfCharge) (.aggregator voltage tolerance sources)) sources.toFinset) s =
          some p) :
    ∃ news, Made s.directory.keys (.makeAggregator name sources voltage tolerance) news ∧
      p.2.seen .outline = s.seen .outline ++ news := by
  have asks : Asks False (s.seen .outline) (getStatus clock limit) := asks_getStatus clock deep_false
  have nothing {t : BOS} (same : t.seen .outline = s.seen .outline) :
      ∃ news, Made s.directory.keys (.makeAggregator name sources voltage tolerance) news ∧
        t.seen .outline = s.seen .outline ++ news :=
    ⟨[], .inl rfl, by rw [List.append_nil, same]⟩
  rcases outcome_bind_eq_some.mp run with ⟨e, t, checked, rfl⟩ | ⟨_, t, checked, run⟩
  · exact nothing (seen_of_runs (runs_checkVoltages voltage tolerance fun a _ => asks a) checked)
  have there := mem_keys_of_checkVoltages asks checked
  have same := seen_of_runs (runs_checkVoltages voltage tolerance fun a _ => asks a) checked
  rcases outcome_bind_eq_some.mp run with ⟨e, t', read, rfl⟩ | ⟨status, t', read, run⟩
  · exact nothing ((seen_of_runs (runs_aggregate voltage fun a _ =>
      asks_getStatus clock deep_false a) read).trans same)
  have same' := (seen_of_runs (runs_aggregate voltage fun a _ =>
    asks_getStatus clock deep_false a) read).trans same
  rw [outcome_bosTime_bind] at run
  have last := seen_addNode_last run
  have keys : t'.directory.keys = s.directory.keys := keys_of_seen same'
  by_cases taken : name ∈ t'.directory.keys
  · rw [if_pos taken, List.append_nil] at last
    exact nothing (last.trans same')
  · rw [if_neg taken] at last
    exact ⟨_, .inr ⟨by rwa [keys] at taken, there, rfl⟩, by
      rw [last]
      exact congrArg (· ++ _) same'⟩

theorem call_made {op : Operation} {p : Except Failure Unit × BOS}
    (run : outcome (call clock limit op) s = some p) :
    ∃ news, Made s.directory.keys op news ∧ p.2.seen .outline = s.seen .outline ++ news := by
  have unchanged (uses : Uses op) : p.2.seen .outline = s.seen .outline ++ [] := by
    rw [List.append_nil]
    exact seen_of_runs (runs_uses uses deep_false) run
  cases op with
  | makeNull name voltage =>
      rw [call, makeNull, outcome_newBattery_bind] at run
      have last := seen_addNode_last run
      exact ⟨_, rfl, last⟩
  | makePseudo name status =>
      rw [call, makePseudo, outcome_newBattery_bind, outcome_bosTime_bind] at run
      have last := seen_addNode_last run
      exact ⟨_, rfl, last⟩
  | makeAggregator name sources voltage tolerance =>
      rw [call, makeAggregator, outcome_newBattery_bind] at run
      split_ifs at run
      · cases run
        exact ⟨[], .inl rfl, (List.append_nil _).symm⟩
      · have rest := aggregator_made run
        exact rest
  | makeSplitterPolicy policyname parent initname =>
      rcases seen_addNode_bind run with ⟨taken, same⟩ | ⟨free, directory, added, run⟩
      · exact ⟨[], (if_pos taken).symm, by rw [List.append_nil, same]⟩
      · refine ⟨_, rfl, ?_⟩
        rw [if_neg free]
        have first := seen_addNode .outline added (s.readings + 1)
        rw [outcome_newBattery_bind] at run
        rcases seen_addNode_bind run with ⟨taken, same⟩ | ⟨free, directory', added', run⟩
        · rw [if_pos (by rwa [keys_addNode added] at taken), same, first]
          rfl
        · rw [if_neg (by rwa [keys_addNode added] at free),
            seen_of_runs (runs_resetMeter (asks_getStatus clock deep_false) initname) run,
            seen_addNode _ added', first, List.append_assoc]
          rfl
  | makeSplitterBattery batteryname policyname tgtStatus fromName =>
      rw [call, makeSplitterBattery, outcome_newBattery_bind] at run
      refine ⟨_, rfl, ?_⟩
      rcases seen_addNode_bind run with ⟨taken, same⟩ | ⟨free, directory, added, run⟩
      · rw [if_pos taken, List.append_nil, same]
        rfl
      · rw [if_neg free, seen_of_runs
          (runs_addChild_resetMeter (asks_getStatus clock deep_false) _ _) run,
          seen_addNode _ added]
        rfl
  | getStatus name => exact ⟨[], rfl, unchanged trivial⟩
  | setCurrent name current => exact ⟨[], rfl, unchanged trivial⟩
  | refresh name => exact ⟨[], rfl, unchanged trivial⟩
  | setStatus name status => exact ⟨[], rfl, unchanged trivial⟩

end Made

/-- Every node looks up names that were there before it, and these are what the directory has noted
as its parents. -/
structure Sound (s : BOS) : Prop where
  before : Grounded s.topology
  recorded : ∀ name entry, s.directory.find? name = some entry →
    entry.parents = entry.node.sources.toFinset

/-- A splitter is made from what is there, unless its name is taken and nothing is made. -/
def Named (s : BOS) : Operation → Prop
  | .makeSplitterPolicy policyname parent _ =>
      policyname ∈ s.directory.keys ∨ parent ∈ s.directory.keys
  | .makeSplitterBattery batteryname policyname _ _ =>
      batteryname ∈ s.directory.keys ∨ policyname ∈ s.directory.keys
  | _ => True

section Soundness

variable {clock : ℕ → ℚ} {s s' : BOS} {limit : ℕ} {op : Operation} {ops : List Operation}
  {news : List (String × Entry)}

def Recorded (entries : List (String × Entry)) : Prop :=
  ∀ p ∈ entries, p.2.parents = p.2.node.sources.toFinset

theorem sound_iff : Sound s ↔ Grounded (rowsOf (s.seen .outline)) ∧
    Recorded (s.seen .outline) := by
  rw [rowsOf_seen]
  constructor
  · rintro ⟨before, recorded⟩
    refine ⟨before, fun p hp => ?_⟩
    obtain ⟨q, hq, rfl⟩ := List.mem_map.mp hp
    exact (recorded q.1 q.2 (BOSDirectory.find?_of_mem hq)).trans
      (congrArg List.toFinset (View.outline.sources_see q.2.node)).symm
  · rintro ⟨before, recorded⟩
    refine ⟨before, fun name entry found => ?_⟩
    rw [recorded _ (seen_of_find? found), View.outline.sources_see]

theorem rowsOf_keys (entries : List (String × Entry)) :
    (rowsOf entries).map Prod.fst = entries.map Prod.fst := by
  rw [rowsOf, List.map_map]
  rfl

theorem grounded_append_entry {entries : List (String × Entry)} (name : String) (node : BOSNode)
    (parents : Finset String) :
    Grounded (rowsOf (entries ++ [newEntry name node parents])) ↔
      Grounded (rowsOf entries) ∧ ∀ a ∈ node.sources, a ∈ entries.map Prod.fst := by
  have row : rowsOf [newEntry name node parents] = [(name, node.sources)] := by
    rw [← View.outline.sources_see node]
    rfl
  have rows : rowsOf (entries ++ [newEntry name node parents]) =
      rowsOf entries ++ [(name, node.sources)] := by
    rw [rowsOf, List.map_append]
    exact congrArg _ row
  rw [rows, Grounded.concat, rowsOf_keys]

theorem recorded_newEntry {name : String} {node : BOSNode} {parents : Finset String}
    (same : parents = node.sources.toFinset) : Recorded [newEntry name node parents] := by
  intro p hp
  rw [List.mem_singleton] at hp
  rw [hp, newEntry, same, View.outline.sources_see]

theorem seen_keys (v : View) (s : BOS) : (s.seen v).map Prod.fst = s.directory.keys := by
  rw [seen, List.map_map]
  rfl

theorem grounded_addNode {name : String} {node : BOSNode} {parents : Finset String}
    {directory : BOSDirectory} (grounded : Grounded s.topology)
    (added : s.directory.addNode name node parents = some directory)
    (there : ∀ a ∈ node.sources, a ∈ s.directory.keys) (readings : ℕ) :
    Grounded (topology ⟨directory, readings⟩) := by
  rw [← rowsOf_seen .outline, seen_addNode .outline added]
  refine (grounded_append_entry name node parents).mpr ⟨by rwa [rowsOf_seen], ?_⟩
  rw [seen_keys]
  exact there

/-- The new entries note whom they look up, and they look up what was there exactly when the call
names what was there. -/
theorem Made.sound_iff_named (grounded : Grounded (rowsOf (s.seen .outline)))
    (made : Made s.directory.keys op news) :
    Recorded news ∧ (Grounded (rowsOf (s.seen .outline ++ news)) ↔ Named s op) := by
  have nothing : Recorded [] ∧ Grounded (rowsOf (s.seen .outline ++ [])) := by
    rw [List.append_nil]
    exact ⟨fun _ hp => (by cases hp), grounded⟩
  have leaf (name : String) (node : BOSNode) (sources : node.sources = []) :
      Recorded [newEntry name node ∅] ∧
        Grounded (rowsOf (s.seen .outline ++ [newEntry name node ∅])) := by
    refine ⟨recorded_newEntry (by rw [sources]; rfl), ?_⟩
    rw [grounded_append_entry, sources]
    exact ⟨grounded, fun _ ha => by cases ha⟩
  have keys := seen_keys .outline s
  cases op with
  | makeNull name voltage =>
      rw [made]
      split_ifs
      · exact ⟨nothing.1, iff_of_true nothing.2 trivial⟩
      · exact ⟨(leaf _ _ rfl).1, iff_of_true (leaf _ _ rfl).2 trivial⟩
  | makePseudo name status =>
      rw [made]
      split_ifs
      · exact ⟨nothing.1, iff_of_true nothing.2 trivial⟩
      · exact ⟨(leaf _ _ rfl).1, iff_of_true (leaf _ _ rfl).2 trivial⟩
  | makeAggregator name sources voltage tolerance =>
      rcases made with rfl | ⟨-, there, rfl⟩
      · exact ⟨nothing.1, iff_of_true nothing.2 trivial⟩
      · refine ⟨recorded_newEntry rfl, iff_of_true ?_ trivial⟩
        rw [grounded_append_entry, keys]
        exact ⟨grounded, there⟩
  | makeSplitterPolicy policyname parent initname =>
      rw [made]
      split_ifs with taken taken'
      · exact ⟨nothing.1, iff_of_true nothing.2 (.inl taken)⟩
      · refine ⟨recorded_newEntry rfl, ?_⟩
        rw [grounded_append_entry, keys]
        simp [Named, taken, grounded, BOSNode.sources]
      · refine ⟨List.forall_mem_cons.mpr ⟨recorded_newEntry rfl _ List.mem_cons_self,
          recorded_newEntry rfl⟩, ?_⟩
        rw [List.append_cons, grounded_append_entry, grounded_append_entry, List.map_append, keys]
        simp [Named, taken, grounded, BOSNode.sources, newEntry]
  | makeSplitterBattery batteryname policyname tgtStatus fromName =>
      rw [made]
      split_ifs with taken
      · exact ⟨nothing.1, iff_of_true nothing.2 (.inl taken)⟩
      · refine ⟨recorded_newEntry rfl, ?_⟩
        rw [grounded_append_entry, keys]
        simp [Named, taken, grounded, BOSNode.sources]
  | getStatus name => exact made ▸ ⟨nothing.1, iff_of_true nothing.2 trivial⟩
  | setCurrent name current => exact made ▸ ⟨nothing.1, iff_of_true nothing.2 trivial⟩
  | refresh name => exact made ▸ ⟨nothing.1, iff_of_true nothing.2 trivial⟩
  | setStatus name status => exact made ▸ ⟨nothing.1, iff_of_true nothing.2 trivial⟩

theorem step_made (next : step clock limit s op = some s') :
    ∃ news, Made s.directory.keys op news ∧ s'.seen .outline = s.seen .outline ++ news := by
  obtain ⟨p, run, rfl⟩ := Option.map_eq_some_iff.mp next
  exact call_made run

theorem step_sound_iff (sound : Sound s) (next : step clock limit s op = some s') :
    Sound s' ↔ Named s op := by
  obtain ⟨news, made, seen⟩ := step_made next
  obtain ⟨grounded, recorded⟩ := sound_iff.mp sound
  obtain ⟨records, iff⟩ := made.sound_iff_named grounded
  rw [sound_iff, seen, ← iff]
  refine and_iff_left fun p hp => ?_
  exact (List.mem_append.mp hp).elim (recorded p) (records p)

theorem Sound.acyclic (sound : Sound s) (name : String) :
    ¬ Relation.TransGen (Feeds s.topology) name name :=
  (sound.before.ranked (by rw [topology_keys]; exact s.directory.nodup)).acyclic name

theorem Sound.mem_getChildren (sound : Sound s) {name n : String} :
    n ∈ s.directory.getChildren name ↔ Feeds s.topology name n := by
  rw [BOSDirectory.getChildren, List.mem_toFinset, List.mem_map]
  constructor
  · rintro ⟨p, hp, rfl⟩
    obtain ⟨listed, parent⟩ := List.mem_filter.mp hp
    have found := BOSDirectory.find?_of_mem listed
    rw [decide_eq_true_eq, sound.recorded _ _ found, List.mem_toFinset] at parent
    exact ⟨_, row_of_find? found, parent⟩
  · rintro ⟨sources, row, source⟩
    obtain ⟨p, hp, same⟩ := List.mem_map.mp row
    obtain ⟨rfl, rfl⟩ := Prod.mk.inj same
    refine ⟨p, List.mem_filter.mpr ⟨hp, ?_⟩, rfl⟩
    rw [decide_eq_true_eq, sound.recorded _ _ (BOSDirectory.find?_of_mem hp), List.mem_toFinset]
    exact source

theorem sound_init : Sound init where
  before := Grounded.nil
  recorded name entry found := by cases found

end Soundness

section Ends

variable {clock : ℕ → ℚ} {s s' : BOS} {limit : ℕ} {op : Operation} {ops : List Operation}

theorem deep_of_grounded (grounded : Grounded s.topology)
    (short : s.directory.keys.length < limit) (a : String) :
    Deep True (s.seen .outline) limit a := by
  rw [← rowsOf_seen .outline] at grounded
  have keys : (rowsOf (s.seen .outline)).map Prod.fst = s.directory.keys := by
    rw [rowsOf_keys, seen_keys]
  refine fun _ => ⟨fun n => s.directory.keys.idxOf n, fun a b feeds => ?_, ?_⟩
  · rw [← keys]
    exact grounded.idxOf_lt (by rw [keys]; exact s.directory.nodup) feeds
  · exact Nat.lt_of_le_of_lt List.idxOf_le_length short

theorem asks_of_grounded (clock : ℕ → ℚ) (grounded : Grounded s.topology)
    (short : s.directory.keys.length < limit) :
    Asks True (s.seen .outline) (getStatus clock limit) :=
  asks_getStatus clock (deep_of_grounded grounded short)

theorem ends_addNode (name : String) (node : BOSNode) (parents : Finset String) :
    ∃ p, outcome (addNode name node parents) s = some p := by
  rw [outcome_addNode]
  cases s.directory.addNode name node parents <;> exact ⟨_, rfl⟩

theorem ends_addNode_bind {name : String} {node : BOSNode} {parents : Finset String}
    {rest : Unit → NodeCall Unit}
    (later : ∀ directory, s.directory.addNode name node parents = some directory →
      ∃ p, outcome (rest ()) ⟨directory, s.readings⟩ = some p) :
    ∃ p, outcome (addNode name node parents >>= rest) s = some p := by
  rw [outcome_addNode_bind]
  cases added : s.directory.addNode name node parents with
  | none => exact ⟨_, rfl⟩
  | some directory => exact later directory added

theorem ends_aggregator {name : String} {sources : List String} {voltage tolerance : ℚ}
    {node : ℚ → BatteryStatus → BOSNode} (asks : Asks True (s.seen .outline) (getStatus clock limit)) :
    ∃ p, outcome (do
      checkVoltages (getStatus clock limit) voltage tolerance sources
      let status ← aggregate (getStatus clock limit) voltage sources
      let now ← bosTime clock
      addNode name (node now status) sources.toFinset) s = some p := by
  have check := runs_checkVoltages voltage tolerance fun a (_ : a ∈ sources) => asks a
  have read := runs_aggregate voltage fun a (_ : a ∈ sources) => asks a
  refine ends_bind ((check s rfl).1 trivial) fun _ t checked => ?_
  have ht := ((check s rfl).2 _ checked).1
  exact ends_bind ((read t ht).1 trivial) fun status t' _ => ends_addNode _ _ _

theorem step_ends (sound : Sound s) (named : Named s op)
    (short : s.directory.keys.length + 2 < limit) : ∃ s', step clock limit s op = some s' := by
  have grounded := sound.before
  have asks : Asks True (s.seen .outline) (getStatus clock limit) :=
    asks_of_grounded clock grounded (by omega)
  have uses (h : Uses op) : ∃ p, outcome (call clock limit op) s = some p :=
    ((runs_uses h (deep_of_grounded grounded (by omega)) s rfl).1 trivial)
  have ends : ∃ p, outcome (call clock limit op) s = some p := by
    cases op with
    | makeNull name voltage =>
        rw [call, makeNull, outcome_newBattery_bind]
        exact ends_addNode _ _ _
    | makePseudo name status =>
        rw [call, makePseudo, outcome_newBattery_bind, outcome_bosTime_bind]
        exact ends_addNode _ _ _
    | makeAggregator name sources voltage tolerance =>
        rw [call, makeAggregator, outcome_newBattery_bind]
        split_ifs
        · exact ⟨_, rfl⟩
        · exact ends_aggregator (s := ⟨s.directory, s.readings + 1⟩) asks
    | makeSplitterPolicy policyname parent initname =>
        refine ends_addNode_bind fun directory added => ?_
        rw [outcome_newBattery_bind]
        refine ends_addNode_bind fun directory' added' => ?_
        have free := (BOSDirectory.addNode_eq_some added).1
        have grounded₁ := grounded_addNode grounded added
          (List.forall_mem_singleton.mpr (named.resolve_left free)) (s.readings + 1)
        have grounded₂ := grounded_addNode grounded₁ added' (List.forall_mem_singleton.mpr (by
          rw [keys_addNode added]
          exact List.mem_append_right _ List.mem_cons_self)) (s.readings + 1)
        have asks' : Asks True _ (getStatus clock limit) := asks_of_grounded clock grounded₂
          (by rw [keys_addNode added', keys_addNode added]; simp; omega)
        exact (runs_resetMeter asks' initname _ rfl).1 trivial
    | makeSplitterBattery batteryname policyname tgtStatus fromName =>
        rw [call, makeSplitterBattery, outcome_newBattery_bind]
        refine ends_addNode_bind fun directory added => ?_
        have free := (BOSDirectory.addNode_eq_some added).1
        have grounded₁ := grounded_addNode grounded added
          (List.forall_mem_singleton.mpr (named.resolve_left free)) (s.readings + 1)
        have asks' : Asks True _ (getStatus clock limit) := asks_of_grounded clock grounded₁
          (by rw [keys_addNode added]; simp; omega)
        exact (runs_addChild_resetMeter asks' tgtStatus fromName _ rfl).1 trivial
    | getStatus name => exact uses trivial
    | setCurrent name current => exact uses trivial
    | refresh name => exact uses trivial
    | setStatus name status => exact uses trivial
  obtain ⟨p, run⟩ := ends
  exact ⟨p.2, Option.map_eq_some_iff.mpr ⟨p, run, rfl⟩⟩

theorem Made.length_le {keys : List String} {news : List (String × Entry)}
    (made : Made keys op news) : news.length ≤ 2 := by
  cases op with
  | makeNull name voltage =>
      rw [made]
      split_ifs <;> simp
  | makePseudo name status =>
      rw [made]
      split_ifs <;> simp
  | makeAggregator name sources voltage tolerance =>
      rcases made with rfl | ⟨-, -, rfl⟩ <;> simp
  | makeSplitterPolicy policyname parent initname =>
      rw [made]
      split_ifs <;> simp
  | makeSplitterBattery batteryname policyname tgtStatus fromName =>
      rw [made]
      split_ifs <;> simp
  | getStatus name => simp [show news = [] from made]
  | setCurrent name current => simp [show news = [] from made]
  | refresh name => simp [show news = [] from made]
  | setStatus name status => simp [show news = [] from made]

theorem keys_step (next : step clock limit s op = some s') :
    s'.directory.keys.length ≤ s.directory.keys.length + 2 := by
  obtain ⟨news, made, seen⟩ := step_made next
  rw [← seen_keys .outline s', seen, List.map_append, seen_keys, List.length_append,
    List.length_map]
  exact Nat.add_le_add_left made.length_le _

theorem run_ends (sound : Sound s) (deep : s.directory.keys.length + 2 * ops.length < limit)
    (named : Along (step clock limit) Named s ops) :
    ∃ s', exec (step clock limit) s ops = some s' := by
  induction ops generalizing s with
  | nil => exact ⟨s, rfl⟩
  | cons op rest ih =>
      obtain ⟨first, later⟩ := along_cons.mp named
      rw [List.length_cons] at deep
      obtain ⟨t, next⟩ : ∃ t, step clock limit s op = some t := step_ends sound first (by omega)
      have short := keys_step next
      obtain ⟨s', run⟩ := ih ((step_sound_iff sound next).mpr first) (by omega) (later t next)
      refine ⟨s', ?_⟩
      rw [exec, List.foldlM_cons, next]
      exact run

/-- In the runs where each splitter is made from what is there, and only in these, no call nests
without end and each node looks up only nodes from before it. -/
theorem ends_soundly_iff (deep : 2 * ops.length < limit) :
    (∃ s, exec (step clock limit) init ops = some s) ∧
        Always (step clock limit) Sound init ops ↔
      Along (step clock limit) Named init ops := by
  have along (s : BOS) (run : exec (step clock limit) init ops = some s) :
      Always (step clock limit) Sound init ops ↔ Along (step clock limit) Named init ops :=
    always_iff_along_of_exec (I := fun _ => True) trivial (fun _ _ _ _ _ => trivial) sound_init
      (fun _ _ _ _ sound next => step_sound_iff sound next) run
  constructor
  · rintro ⟨⟨s, run⟩, sound⟩
    exact (along s run).mp sound
  · intro named
    have start : init.directory.keys.length + 2 * ops.length < limit := by
      rw [show init.directory.keys.length = 0 from rfl, Nat.zero_add]
      exact deep
    obtain ⟨s, run⟩ := run_ends sound_init start named
    exact ⟨⟨s, run⟩, (along s run).mpr named⟩

end Ends

def stack : List Operation :=
  [.makePseudo "cell" ⟨7000, 0, 500, 1000, 12, 12⟩, .makeAggregator "pack" ["cell"] 7000 500,
    .makeSplitterPolicy "policy" "pack" "rest",
    .makeSplitterBattery "half" "policy" ⟨7000, 0, 250, 500, 6, 6⟩ "rest"]

theorem ends_soundly_iff_stack :
    (∃ s, exec (step (fun n => n) 9) init stack = some s) ∧
        Always (step (fun n => n) 9) Sound init stack ↔
      Along (step (fun n => n) 9) Named init stack :=
  ends_soundly_iff (by decide)

/-! The calls that a user makes to batteries. -/

section Requests

inductive Request
  | getStatus (name : String)
  | setCurrent (name : String) (current : ℚ)
  | refresh (name : String)

namespace Request

def name : Request → String
  | getStatus name => name
  | setCurrent name _ => name
  | refresh name => name

def operation : Request → Operation
  | getStatus name => .getStatus name
  | setCurrent name current => .setCurrent name current
  | refresh name => .refresh name

def sets : Request → Bool
  | getStatus _ => false
  | setCurrent _ _ => true
  | refresh _ => false

end Request

variable {clock : ℕ → ℚ} {s s' : BOS} {limit : ℕ} {request : Request} {requests : List Request}

/-- The batteries that are not called by those that a request is made to stay as they are, and
those that are called keep what the request is not about. -/
structure Confined (s s' : BOS) (requests : List Request) : Prop where
  design : s'.seen .design = s.seen .design
  setup : (∀ request ∈ requests, request.sets = false) → s'.seen .setup = s.seen .setup
  apart : ∀ n, (∀ request ∈ requests, ¬ Below s.topology n request.name) →
    s'.directory.find? n = s.directory.find? n

theorem confined_one (next : step clock limit s request.operation = some s') :
    Confined s s' [request] := by
  obtain ⟨p, run, rfl⟩ := Option.map_eq_some_iff.mp next
  have calm (x : NodeCall Unit) (run : outcome x s = some p)
      (hx : Runs False (within .setup (s.seen .setup)
        (Below (rowsOf (s.seen .setup)) · request.name)) x) : Confined s p.2 [request] := by
    obtain ⟨seen, apart⟩ := (hx s rfl).2 p run
    rw [rowsOf_seen] at apart
    exact ⟨seen_finer View.setup_finer_design seen, fun _ => seen,
      fun n hn => apart n (hn request List.mem_cons_self)⟩
  cases request with
  | getStatus name =>
      exact calm _ run (Runs.bind (runs_getStatus clock (deep_false name)) fun _ => Runs.pure _)
  | setCurrent name current =>
      have hx : Runs False (within .design (s.seen .design) _) (setCurrent clock limit name current) :=
        runs_setCurrent clock (deep_false name) current
      obtain ⟨seen, apart⟩ := (hx s rfl).2 p run
      rw [rowsOf_seen] at apart
      refine ⟨seen, fun calm => ?_, fun n hn => apart n (hn _ List.mem_cons_self)⟩
      exact Bool.noConfusion (calm _ List.mem_cons_self)
  | refresh name => exact calm _ run (runs_refresh clock (deep_false name))

/-- Requests change nothing but what they are about, in nothing but the batteries below those that
they are made to. -/
theorem requests_confined
    (run : exec (step clock limit) s (requests.map Request.operation) = some s') :
    Confined s s' requests := by
  induction requests generalizing s with
  | nil =>
      cases run
      exact ⟨rfl, fun _ => rfl, fun _ _ => rfl⟩
  | cons request rest ih =>
      rw [List.map_cons, exec, List.foldlM_cons] at run
      obtain ⟨t, next, run⟩ := Option.bind_eq_some_iff.mp run
      have first := confined_one next
      have later := ih run
      refine ⟨later.design.trans first.design, fun calm => ?_, fun n hn => ?_⟩
      · obtain ⟨calm, calms⟩ := List.forall_mem_cons.mp calm
        exact (later.setup calms).trans (first.setup (List.forall_mem_singleton.mpr calm))
      · obtain ⟨apart, aparts⟩ := List.forall_mem_cons.mp hn
        rw [← topology_of_seen first.design] at aparts
        exact (later.apart n aparts).trans (first.apart n (List.forall_mem_singleton.mpr apart))

def stacked : BOS := (exec (step (fun n => n) 9) init stack).getD init

def sharing : List Request := [.setCurrent "half" 2, .getStatus "pack", .refresh "rest"]

theorem requests_confined_stacked : ∃ s,
    exec (step (fun n => n) 9) stacked (sharing.map Request.operation) = some s ∧
      Confined stacked s sharing := by
  obtain ⟨s, run⟩ := Option.isSome_iff_exists.mp
    (show (exec (step (fun n => n) 9) stacked
      (sharing.map Request.operation)).isSome = true by decide +kernel)
  exact ⟨s, run, requests_confined run⟩

end Requests

end BOS

end BatteryOS.V1
