import BatteryOS.V1.NodeRun
import BatteryOS.V1.SplitterBattery

/-! A policy with its batteries, as they are in the directory of a V1 node. Whatever is called on
the node, they go through states that they also go through by themselves, where the source answers
as it does in the node. -/

namespace BatteryOS.V1

namespace BOS

open Fallible StepRun

def partMeter (policyname : String) : BOSNode → Option Metered
  | .battery metered (.splitter name) => if name = policyname then some metered else none
  | .battery _ (.null _) => none
  | .battery _ (.pseudo _) => none
  | .battery _ (.aggregator _ _ _) => none
  | .policy _ _ => none

/-- The policy is in the directory, and so are its batteries. -/
structure Represents (policyname : String) (s : BOS) (t : SplitterSystem) : Prop where
  policy : ∃ srcname parents,
    s.directory.find? policyname = some ⟨.policy srcname t.policy, parents⟩
  batteries : ∀ n, t.batteries.find? n =
    (s.directory.find? n).bind fun entry => partMeter policyname entry.node

section Still

variable {policyname name n : String} {s s' : BOS} {t t' : SplitterSystem}
  {entries : List (String × Entry)} {clock : ℕ → ℚ} {limit : ℕ} {f : BOSNode → BOSNode}
  {a b : BOSNode} {entry : Entry}

theorem partMeter_onMeter (g : Metered → Metered) (node : BOSNode) :
    partMeter policyname (node.onMeter g) = (partMeter policyname node).map g := by
  rcases node with ⟨metered, _ | _ | _ | name⟩ | _
  · rfl
  · rfl
  · rfl
  · simp only [BOSNode.onMeter, partMeter]
    split_ifs <;> rfl
  · rfl

theorem sources_of_partMeter {metered : Metered} (part : partMeter policyname a = some metered) :
    a = .battery metered (.splitter policyname) := by
  rcases a with ⟨metered', _ | _ | _ | name⟩ | _
  · cases part
  · cases part
  · cases part
  · simp only [partMeter] at part
    split_ifs at part with own
    cases part
    rw [own]
  · cases part

theorem partMeter_of_outline (same : View.outline.see a = View.outline.see b)
    (other : partMeter policyname a = none) : partMeter policyname b = none := by
  cases part : partMeter policyname b with
  | none => rfl
  | some metered =>
      rw [sources_of_partMeter part] at same
      rcases a with ⟨metered', _ | _ | _ | name⟩ | _
      · cases same
      · cases same
      · cases same
      · cases same
        simp [partMeter] at other
      · cases same

def still (policyname : String) (entries : List (String × Entry)) : Guard BOS where
  holds s := s.seen .outline = entries
  allows s s' := s'.seen .outline = s.seen .outline ∧
    ∀ t, Represents policyname s t → Represents policyname s' t
  refl _ := ⟨rfl, fun _ h => h⟩
  trans _ _ _ first second := ⟨second.1.trans first.1, fun t h => second.2 t (first.2 t h)⟩
  keeps _ _ holds allowed := allowed.1.trans holds

theorem Represents.of_same (h : Represents policyname s t)
    (policy : s'.directory.find? policyname = s.directory.find? policyname)
    (parts : ∀ n, ((s'.directory.find? n).bind fun entry => partMeter policyname entry.node) =
      (s.directory.find? n).bind fun entry => partMeter policyname entry.node) :
    Represents policyname s' t where
  policy := by rw [policy]; exact h.policy
  batteries n := by rw [h.batteries, parts]

theorem still_modify {readings : ℕ} (seen : seen .outline ⟨s.directory.modify name f, readings⟩ =
      s.seen .outline)
    (apart : ∀ entry, s.directory.find? name = some entry →
      (∀ srcname p, name = policyname → entry.node = .policy srcname p →
        f entry.node = entry.node) ∧
      partMeter policyname (f entry.node) = partMeter policyname entry.node) :
    (still policyname entries).allows s ⟨s.directory.modify name f, readings⟩ := by
  refine ⟨seen, fun t h => ?_⟩
  obtain ⟨srcname, parents, there⟩ := h.policy
  refine h.of_same ?_ fun n => ?_
  · rw [BOSDirectory.find?_modify, there, Option.map_some]
    split_ifs with own
    · rw [(apart _ (own ▸ there)).1 srcname _ own.symm rfl]
    · rfl
  · rw [BOSDirectory.find?_modify]
    cases found : s.directory.find? n with
    | none => rfl
    | some entry =>
        rw [Option.map_some, Option.bind_some, Option.bind_some]
        split_ifs with own
        · exact (apart entry (own ▸ found)).2
        · rfl

theorem still_of_within {v : View} {srcname : String} (finer : v.Finer .outline)
    (grounded : Grounded s.topology) (feeds : Feeds s.topology srcname policyname)
    (allowed : (within v (s.seen v) (Below (rowsOf (s.seen v)) · srcname)).allows s s') :
    (still policyname entries).allows s s' := by
  obtain ⟨seen, apart⟩ := allowed
  rw [rowsOf_seen] at apart
  have outline := seen_finer finer seen
  have acyclic (a : String) : ¬ Relation.TransGen (Feeds s.topology) a a :=
    (grounded.ranked (by rw [topology_keys]; exact s.directory.nodup)).acyclic a
  refine ⟨outline, fun t h => h.of_same ?_ fun n => ?_⟩
  · exact apart policyname fun below => acyclic _ (Relation.TransGen.tail' below feeds)
  · cases found : s.directory.find? n with
    | none =>
        have absent : s'.directory.find? n = none := by
          rwa [BOSDirectory.find?_eq_none, keys_of_seen outline, ← BOSDirectory.find?_eq_none]
        rw [absent]
    | some entry =>
        cases part : partMeter policyname entry.node with
        | none =>
            obtain ⟨later, there, same, -⟩ := find?_of_seen outline found
            rw [there, Option.bind_some, Option.bind_some, part,
              partMeter_of_outline same.symm part]
        | some metered =>
            have row := row_of_find? found
            rw [sources_of_partMeter part] at row
            rw [apart n fun below => acyclic policyname
              (.head ⟨_, row, List.mem_cons_self⟩ (Relation.TransGen.tail' below feeds)), found]

theorem runsAt_still {v : View} {srcname : String} {α : Type} {x : NodeCall α}
    (finer : v.Finer .outline) (grounded : Grounded (rowsOf entries))
    (feeds : Feeds (rowsOf entries) srcname policyname) (hs : s.seen .outline = entries)
    (hx : Runs False (within v (s.seen v) (Below (rowsOf (s.seen v)) · srcname)) x) :
    RunsAt False (still policyname entries) x s := by
  rw [← hs, rowsOf_seen] at grounded feeds
  exact ⟨fun asked => asked.elim, fun p run =>
    still_of_within finer grounded feeds ((hx s rfl).2 p run)⟩

theorem runs_getStatus_still {srcname : String} (grounded : Grounded (rowsOf entries))
    (feeds : Feeds (rowsOf entries) srcname policyname) :
    Runs False (still policyname entries) (getStatus clock limit srcname) :=
  fun _ hs => runsAt_still (fun _ _ same => View.design_finer_outline _ _
    (View.setup_finer_design _ _ same)) grounded feeds hs (runs_getStatus clock (deep_false _))

theorem runs_setCurrent_still {srcname : String} (grounded : Grounded (rowsOf entries))
    (feeds : Feeds (rowsOf entries) srcname policyname) (current : ℚ) :
    Runs False (still policyname entries) (setCurrent clock limit srcname current) :=
  fun _ hs => runsAt_still View.design_finer_outline grounded feeds hs
    (runs_setCurrent clock (deep_false _) current)

end Still

section Outcomes

variable {policyname name : String} {s s' : BOS} {t : SplitterSystem} {α : Type}
  {entries : List (String × Entry)} {clock : ℕ → ℚ} {limit : ℕ}

theorem outcome_value_ok {x : Except Error α} {a : α} :
    outcome (value x) s = some (.ok a, s') ↔ x = .ok a ∧ s' = s := by
  cases x with
  | error e =>
      refine iff_of_false (fun h => ?_) fun h => by cases h.1
      cases h
  | ok b =>
      constructor
      · intro h
        cases h
        exact ⟨rfl, rfl⟩
      · rintro ⟨same, rfl⟩
        cases same
        rfl

theorem item_eq_ok {β : Type} {m : OrderedMap String β} {k : String} {v : β} :
    item m k = .ok v ↔ m.find? k = some v := by
  rw [item]
  cases m.find? k with
  | none => exact iff_of_false (fun h => by cases h) fun h => by cases h
  | some u => rw [Except.ok.injEq, Option.some_inj]

theorem outcome_lookup_ok {node : BOSNode} : outcome (lookup name) s = some (.ok node, s') ↔
    s' = s ∧ ∃ parents, s.directory.find? name = some ⟨node, parents⟩ := by
  rw [lookup, outcome_get_bind]
  cases found : s.directory.find? name with
  | none =>
      refine iff_of_false (fun h => ?_) fun h => ?_
      · cases h
      · obtain ⟨-, parents, absent⟩ := h
        cases absent
  | some entry =>
      obtain ⟨node', parents⟩ := entry
      constructor
      · intro h
        cases h
        exact ⟨rfl, parents, rfl⟩
      · rintro ⟨rfl, parents', same⟩
        cases same
        rfl

theorem outcome_lookupPolicy_ok {otherwise : Failure} {found : String × ProportionalPolicy} :
    outcome (lookupPolicy name otherwise) s = some (.ok found, s') ↔
      s' = s ∧ ∃ parents, s.directory.find? name = some ⟨.policy found.1 found.2, parents⟩ := by
  rw [lookupPolicy, outcome_bind_eq_ok]
  constructor
  · rintro ⟨node, t, looked, rest⟩
    obtain ⟨rfl, parents, there⟩ := outcome_lookup_ok.mp looked
    cases node with
    | battery metered kind => cases rest
    | policy srcname p =>
        cases rest
        exact ⟨rfl, parents, there⟩
  · rintro ⟨rfl, parents, there⟩
    exact ⟨_, s', outcome_lookup_ok.mpr ⟨rfl, parents, there⟩, rfl⟩

theorem outcome_getMeter_ok {x : ℚ} : outcome (getMeter name) s = some (.ok x, s') ↔
    s' = s ∧ ∃ metered kind parents,
      s.directory.find? name = some ⟨.battery metered kind, parents⟩ ∧ x = metered.meter := by
  rw [getMeter, lookupBattery, bind_assoc, outcome_bind_eq_ok]
  constructor
  · rintro ⟨node, t, looked, rest⟩
    obtain ⟨rfl, parents, there⟩ := outcome_lookup_ok.mp looked
    cases node with
    | battery metered kind =>
        cases rest
        exact ⟨rfl, metered, kind, parents, there, rfl⟩
    | policy srcname p => cases rest
  · rintro ⟨rfl, metered, kind, parents, there, rfl⟩
    exact ⟨_, s', outcome_lookup_ok.mpr ⟨rfl, parents, there⟩, rfl⟩

theorem Represents.battery (h : Represents policyname s t) {metered : Metered}
    (part : t.batteries.find? name = some metered) : ∃ parents,
      s.directory.find? name = some ⟨.battery metered (.splitter policyname), parents⟩ := by
  rw [h.batteries, Option.bind_eq_some_iff] at part
  obtain ⟨⟨node, parents⟩, found, part⟩ := part
  obtain rfl : node = _ := sources_of_partMeter part
  exact ⟨parents, found⟩

theorem Represents.policy_eq (h : Represents policyname s t) {srcname : String}
    {p : ProportionalPolicy} {parents : Finset String}
    (found : s.directory.find? policyname = some ⟨.policy srcname p, parents⟩) : p = t.policy := by
  obtain ⟨srcname', parents', there⟩ := h.policy
  rw [found] at there
  exact (BOSNode.policy.inj (Entry.mk.inj (Option.some.inj there)).1).2

theorem outcome_getMeter_part (h : Represents policyname s t)
    (registered : SplitterBattery.Registered t) (managed : name ∈ t.policy.parts) :
    outcome (getMeter name) s = some (.ok (SplitterBattery.expectedSoc t name), s) := by
  obtain ⟨metered, part⟩ := registered.battery name managed
  obtain ⟨parents, found⟩ := h.battery part
  refine outcome_getMeter_ok.mpr ⟨rfl, _, _, parents, found, ?_⟩
  rw [SplitterBattery.expectedSoc, part, Option.map_some, Option.getD_some]

theorem outcome_mapM {α β : Type} {f : α → NodeCall β} {g : α → β} {xs : List α}
    (each : ∀ a ∈ xs, outcome (f a) s = some (.ok (g a), s)) :
    outcome (xs.mapM f) s = some (.ok (xs.map g), s) := by
  induction xs with
  | nil => rfl
  | cons a rest ih =>
      rw [List.mapM_cons, outcome_bind_eq_ok]
      refine ⟨_, s, each a List.mem_cons_self, outcome_bind_eq_ok.mpr ⟨_, s, ?_, rfl⟩⟩
      exact ih fun b hb => each b (List.mem_cons_of_mem a hb)

theorem runs_policyStatus_still (grounded : Grounded (rowsOf entries)) (dstname : String) :
    Runs False (still policyname entries) (policyStatus (getStatus clock limit) policyname dstname) :=
  runs_policyStatus dstname fun _ hs _ _ _ found =>
    runs_getStatus_still grounded (feeds_of_find? hs found List.mem_cons_self)

theorem policyStatus_ok {status : BatteryStatus} (grounded : Grounded s.topology)
    (h : Represents policyname s t) (registered : SplitterBattery.Registered t)
    (run : outcome (policyStatus (getStatus clock limit) policyname name) s =
      some (.ok status, s')) :
    name ∈ t.policy.parts ∧ status.current = SplitterBattery.currentOf t name ∧
      ∃ first second, ∀ w readings, w.source readings = .ok first →
        w.source (readings + 1) = .ok second →
          t.policy.getStatus (t.environment w readings) name = .ok status := by
  rw [← rowsOf_seen .outline] at grounded
  rw [policyStatus, outcome_bind_eq_ok] at run
  obtain ⟨found, s₁, looked, run⟩ := run
  obtain ⟨rfl, parents, there⟩ := outcome_lookupPolicy_ok.mp looked
  have same := h.policy_eq there
  have feeds := feeds_of_find? (v := .outline) rfl there List.mem_cons_self
  simp only [outcome_bind_eq_ok] at run
  obtain ⟨first, s₂, asked, scale, s₃, scaled, soc, s₄, expected, meters, s₅, metered, second, s₆,
    again, share, s₇, divided, current, s₈, drawn, run⟩ := run
  obtain ⟨scale_eq, rfl⟩ := outcome_value_ok.mp scaled
  rw [same] at scale_eq metered drawn
  have managed : name ∈ t.policy.parts :=
    ProportionalPolicy.mem_parts.mpr ⟨scale, item_eq_ok.mp scale_eq⟩
  have represented : Represents policyname s₃ t :=
    ((runs_getStatus_still grounded feeds s₁ rfl).2 _ asked).2 t h
  have meters_eq : outcome (found.2.parts.mapM getMeter) s₃ =
      some (.ok (t.policy.parts.map (SplitterBattery.expectedSoc t)), s₃) := by
    rw [same]
    exact outcome_mapM fun n hn => outcome_getMeter_part represented registered hn
  rw [outcome_getMeter_part represented registered managed] at expected
  cases expected
  rw [← same, meters_eq] at metered
  cases metered
  obtain ⟨share_eq, rfl⟩ := outcome_value_ok.mp divided
  obtain ⟨current_eq, rfl⟩ := outcome_value_ok.mp drawn
  cases run
  refine ⟨managed, ?_, first, second, fun w readings source source' => ?_⟩
  · rw [SplitterBattery.currentOf, item_eq_ok.mp current_eq, Option.getD_some]
  · simp only [ProportionalPolicy.getStatus, bind_eq_ok]
    refine ⟨first, source, scale, scale_eq, _, SplitterBattery.meterOf_eq registered w managed, _,
      SplitterBattery.mapM_ok fun n hn => SplitterBattery.meterOf_eq registered w hn,
      second, source', share, share_eq, current, current_eq, rfl⟩

end Outcomes

section Writes

variable {policyname name : String} {s s' : BOS} {t : SplitterSystem} {directory : BOSDirectory}
  {node : BOSNode} {parents : Finset String}

theorem Represents.onMeter (h : Represents policyname s t) (name : String)
    (f : Metered → Metered) (readings : ℕ) :
    Represents policyname ⟨s.directory.modify name (.onMeter f), readings⟩
      { t with batteries := t.batteries.modify name f } where
  policy := by
    obtain ⟨srcname, parents, there⟩ := h.policy
    refine ⟨srcname, parents, ?_⟩
    rw [BOSDirectory.find?_modify, there, Option.map_some]
    split_ifs <;> rfl
  batteries n := by
    rw [OrderedMap.find?_modify, BOSDirectory.find?_modify, h.batteries, h.batteries]
    split_ifs with own
    · subst own
      cases s.directory.find? n with
      | none => rfl
      | some entry => exact (partMeter_onMeter f entry.node).symm
    · cases s.directory.find? n <;> rfl

theorem Represents.onPolicy (h : Represents policyname s t)
    (f : ProportionalPolicy → ProportionalPolicy) (readings : ℕ) :
    Represents policyname ⟨s.directory.modify policyname (.onPolicy f), readings⟩
      { t with policy := f t.policy } where
  policy := by
    obtain ⟨srcname, parents, there⟩ := h.policy
    refine ⟨srcname, parents, ?_⟩
    rw [BOSDirectory.find?_modify, there, Option.map_some, if_pos rfl]
    rfl
  batteries n := by
    obtain ⟨srcname, parents, there⟩ := h.policy
    rw [BOSDirectory.find?_modify, h.batteries]
    by_cases own : n = policyname
    · rw [own, there, Option.map_some, if_pos rfl]
      rfl
    · cases s.directory.find? n with
      | none => rfl
      | some entry => rw [Option.map_some, if_neg own]

theorem find?_addNode (added : s.directory.addNode name node parents = some directory)
    (n : String) : directory.find? n =
      if n = name then some ⟨node, parents⟩ else s.directory.find? n := by
  obtain ⟨free, map⟩ := BOSDirectory.addNode_eq_some added
  split_ifs with new
  · refine BOSDirectory.find?_of_mem ?_
    rw [map, new]
    exact List.mem_append_right _ List.mem_cons_self
  · cases found : s.directory.find? n with
    | none =>
        rw [BOSDirectory.find?_eq_none] at found ⊢
        rw [keys_addNode added, List.mem_append, List.mem_singleton]
        exact fun h => h.elim found new
    | some entry =>
        refine BOSDirectory.find?_of_mem ?_
        rw [map]
        exact List.mem_append_left _ (BOSDirectory.mem_of_find? found)

theorem Represents.mem_keys (h : Represents policyname s t) : policyname ∈ s.directory.keys := by
  obtain ⟨srcname, parents, there⟩ := h.policy
  by_contra absent
  rw [BOSDirectory.find?_eq_none.mpr absent] at there
  cases there

theorem Represents.ne (h : Represents policyname s t) (free : name ∉ s.directory.keys) :
    policyname ≠ name :=
  fun same => free (same ▸ h.mem_keys)

theorem Represents.addOther (h : Represents policyname s t)
    (added : s.directory.addNode name node parents = some directory)
    (other : partMeter policyname node = none) (readings : ℕ) :
    Represents policyname ⟨directory, readings⟩ t := by
  have free := (BOSDirectory.addNode_eq_some added).1
  refine h.of_same ?_ fun n => ?_
  · rw [find?_addNode added, if_neg (h.ne free)]
  · rw [find?_addNode added]
    split_ifs with new
    · rw [new, BOSDirectory.find?_eq_none.mpr free]
      exact other
    · rfl

theorem Represents.addPart (h : Represents policyname s t) {metered : Metered}
    (added : s.directory.addNode name (.battery metered (.splitter policyname)) parents =
      some directory) (readings : ℕ) :
    Represents policyname ⟨directory, readings⟩
      { t with batteries := t.batteries.set name metered } where
  policy := by
    obtain ⟨srcname, parents', there⟩ := h.policy
    refine ⟨srcname, parents', ?_⟩
    rw [find?_addNode added,
      if_neg (h.ne (BOSDirectory.addNode_eq_some added).1), there]
  batteries n := by
    rw [OrderedMap.find?_set, find?_addNode added, h.batteries]
    split_ifs
    · exact (if_pos rfl).symm
    · rfl

end Writes

/-! What the policy and its batteries do by themselves. -/

section Alone

open SplitterBattery (after currentOf Registered)

variable {t : SplitterSystem} {w : World} {name : String} {status : BatteryStatus}
  {readings ticks : ℕ}

/-- What the source and the clock say, one time after the other. Then the source raises. -/
def answers (sources : List BatteryStatus) (times : List ℚ) (accepts : Bool) : World where
  source n := (sources[n]?).elim (.error .key) .ok
  setSource _ := if accepts then .ok () else .error .currentOutOfRange
  clock n := (times[n]?).getD 0
  otherNode _ := false
  otherMeter _ := .error .badName

theorem exec_one (op : SplitterBattery.Operation) :
    exec SplitterBattery.step t [op] = some (after (SplitterBattery.call op) t) := by
  rw [exec_singleton]
  rfl

theorem after_bind {α β : Type} (x : Call α) (f : α → Call β) (t : SplitterSystem) :
    after (x >>= f) t = match x.run.run t with
      | (.error _, t') => t'
      | (.ok a, t') => after (f a) t' := by
  rw [after, SplitterBattery.run_bind]
  rcases x.run.run t with ⟨_ | a, t'⟩ <;> rfl

theorem after_bind_ok {α β : Type} {x : Call α} {f : α → Call β} {t t' : SplitterSystem} {a : α}
    (run : x.run.run t = (.ok a, t')) : after (x >>= f) t = after (f a) t' := by
  rw [after_bind, run]

theorem run_getStatus_ok
    (reported : t.policy.getStatus (t.environment w readings) name = .ok status) :
    (SplitterBattery.getStatus w readings ticks name).run.run t =
      (.ok status, t.updateMeter name (w.clock ticks) status.current status.current) := by
  change ((SplitterBattery.value (t.policy.getStatus (t.environment w readings) name) >>=
    fun status => (do
      modify fun s => s.updateMeter name (w.clock ticks) status.current status.current
      return status : Call BatteryStatus)).run.run t) = _
  rw [SplitterBattery.run_bind, reported]
  rfl

theorem run_getStatus_error {e : Error}
    (raised : t.policy.getStatus (t.environment w readings) name = .error e) :
    (SplitterBattery.getStatus w readings ticks name).run.run t = (.error e, t) := by
  change ((SplitterBattery.value (t.policy.getStatus (t.environment w readings) name) >>=
    fun status => (do
      modify fun s => s.updateMeter name (w.clock ticks) status.current status.current
      return status : Call BatteryStatus)).run.run t) = _
  rw [SplitterBattery.run_bind, raised]
  rfl

theorem getStatus_of_source_error {e : Error} (raised : w.source readings = .error e) :
    t.policy.getStatus (t.environment w readings) name = .error e := by
  change (w.source (readings + 0) >>= _) = _
  rw [Nat.add_zero, raised]
  rfl

theorem run_resetMeter_ok (registered : Registered t) {scale : Scale} {total : BatteryStatus}
    (found : t.policy.scales.find? name = some scale) (source : w.source readings = .ok total) :
    (SplitterBattery.resetMeter w readings name).run.run t =
      (.ok (), t.setMeter name (total.stateOfCharge * scale.stateOfCharge)) := by
  have managed : name ∈ t.policy.parts := ProportionalPolicy.mem_parts.mpr ⟨scale, found⟩
  have reset : t.policy.resetMeter (t.environment w readings) 0 name =
      .ok (total.stateOfCharge * scale.stateOfCharge) := by
    simp only [ProportionalPolicy.resetMeter, bind_eq_ok]
    exact ⟨total, source, scale, item_eq_ok.mpr found, _,
      SplitterBattery.meterOf_eq registered w managed, rfl⟩
  change ((SplitterBattery.value (t.policy.resetMeter (t.environment w readings) 0 name) >>=
    fun soc => (modify fun s => s.setMeter name soc : Call Unit)).run.run t) = _
  rw [SplitterBattery.run_bind, reset]
  rfl

theorem run_resetMeter_error {e : Error} (raised : w.source readings = .error e) :
    (SplitterBattery.resetMeter w readings name).run.run t = (.error e, t) := by
  have reset : t.policy.resetMeter (t.environment w readings) 0 name = .error e := by
    change (w.source (readings + 0) >>= _) = _
    rw [Nat.add_zero, raised]
    rfl
  change ((SplitterBattery.value (t.policy.resetMeter (t.environment w readings) 0 name) >>=
    fun soc => (modify fun s => s.setMeter name soc : Call Unit)).run.run t) = _
  rw [SplitterBattery.run_bind, reset]
  rfl

end Alone

/-! What calls to the batteries of the policy come to. -/

section Parts

open SplitterBattery (after Registered)

variable {policyname name : String} {s s' : BOS} {t : SplitterSystem} {clock : ℕ → ℚ}
  {limit : ℕ} {metered : Metered} {parents : Finset String} {targetCurrent : ℚ}

theorem outcome_updateMeter (name : String) (endcurrent newcurrent : ℚ) :
    outcome (updateMeter clock name endcurrent newcurrent) s = some (.ok (),
      ⟨s.directory.modify name (.onMeter fun m =>
        m.updateMeter (clock s.readings) endcurrent newcurrent), s.readings + 1⟩) := rfl

/-- The report that the policy gives for a battery by itself, when the source has said the one and
then the other. -/
def Reports (t : SplitterSystem) (name : String) (first second status : BatteryStatus) : Prop :=
  ∀ w readings, w.source readings = .ok first → w.source (readings + 1) = .ok second →
    t.policy.getStatus (t.environment w readings) name = .ok status

theorem getStatus_part {r : Except Failure BatteryStatus} (grounded : Grounded s.topology)
    (h : Represents policyname s t) (registered : Registered t)
    (found : s.directory.find? name = some ⟨.battery metered (.splitter policyname), parents⟩)
    (run : outcome (getStatus clock limit name) s = some (r, s')) :
    (∃ e, r = .error e) ∧ Represents policyname s' t ∨
      ∃ status now first second, r = .ok status ∧ Reports t name first second status ∧
        Represents policyname s' (t.updateMeter name now status.current status.current) := by
  cases limit with
  | zero => cases run
  | succ limit =>
      rw [getStatus, outcome_bind_eq_some] at run
      rcases run with ⟨e, s₁, looked, -⟩ | ⟨node, s₁, looked, run⟩
      · rw [lookup, outcome_get_bind, found] at looked
        cases looked
      obtain ⟨rfl, parents', there⟩ := outcome_lookup_ok.mp looked
      rw [found] at there
      cases there
      have calm : Runs False (still policyname (s₁.seen .outline))
          (policyStatus (getStatus clock limit) policyname name) :=
        runs_policyStatus_still (by rwa [rowsOf_seen]) name
      rcases outcome_bind_eq_some.mp run with ⟨e, s₂, read, same⟩ | ⟨status, s₂, read, run⟩
      · cases same
        exact .inl ⟨⟨e, rfl⟩, ((calm s₁ rfl).2 _ read).2 t h⟩
      · obtain ⟨-, -, first, second, reports⟩ := policyStatus_ok grounded h registered read
        have kept := ((calm s₁ rfl).2 _ read).2 t h
        rw [outcome_bind, outcome_updateMeter] at run
        cases run
        exact .inr ⟨status, _, first, second, rfl, reports, kept.onMeter name _ _⟩

theorem Represents.outcome_lookupPolicy (h : Represents policyname s t) (otherwise : Failure) :
    ∃ srcname, outcome (lookupPolicy policyname otherwise) s = some (.ok (srcname, t.policy), s) ∧
      Feeds s.topology srcname policyname := by
  obtain ⟨srcname, parents, there⟩ := h.policy
  exact ⟨srcname, outcome_lookupPolicy_ok.mpr ⟨rfl, parents, there⟩, _, row_of_find? there,
    List.mem_cons_self⟩

theorem Represents.source_asked {srcname : String} {p : Except Failure BatteryStatus × BOS}
    (h : Represents policyname s t) (grounded : Grounded s.topology)
    (feeds : Feeds s.topology srcname policyname)
    (run : outcome (getStatus clock limit srcname) s = some p) : Represents policyname p.2 t := by
  have calm : Runs False (still policyname (s.seen .outline)) (getStatus clock limit srcname) :=
    runs_getStatus_still (by rwa [rowsOf_seen]) (by rwa [rowsOf_seen])
  exact ((calm s rfl).2 p run).2 t h

theorem Represents.source_set {srcname : String} {current : ℚ} {p : Except Failure Unit × BOS}
    (h : Represents policyname s t) (grounded : Grounded s.topology)
    (feeds : Feeds s.topology srcname policyname)
    (run : outcome (setCurrent clock limit srcname current) s = some p) :
    Represents policyname p.2 t := by
  have calm : Runs False (still policyname (s.seen .outline))
      (setCurrent clock limit srcname current) :=
    runs_setCurrent_still (by rwa [rowsOf_seen]) (by rwa [rowsOf_seen]) current
  exact ((calm s rfl).2 p run).2 t h

theorem Represents.outcome_setMeter (h : Represents policyname s t)
    (registered : Registered t) (managed : name ∈ t.policy.parts) (newvalue : ℚ) :
    ∃ s', outcome (setMeter name newvalue) s = some (.ok (), s') ∧
      Represents policyname s' (t.setMeter name newvalue) := by
  obtain ⟨metered, part⟩ := registered.battery name managed
  obtain ⟨parents, found⟩ := h.battery part
  refine ⟨⟨s.directory.modify name (.onMeter fun m => m.setMeter newvalue), s.readings⟩, ?_,
    h.onMeter name _ _⟩
  rw [setMeter, lookupBattery, bind_assoc, outcome_bind_eq_some]
  exact .inr ⟨_, s, outcome_lookup_ok.mpr ⟨rfl, parents, found⟩, rfl⟩

theorem policyResetMeter_part {r : Except Failure Unit} (grounded : Grounded s.topology)
    (h : Represents policyname s t) (registered : Registered t)
    (run : outcome (policyResetMeter (getStatus clock limit) policyname name) s = some (r, s')) :
    (∃ e, r = .error e) ∧ Represents policyname s' t ∨
      ∃ (total : BatteryStatus) (scale : Scale), r = .ok () ∧
        t.policy.scales.find? name = some scale ∧
        Represents policyname s' (t.setMeter name (total.stateOfCharge * scale.stateOfCharge)) := by
  obtain ⟨srcname, looked, feeds⟩ := h.outcome_lookupPolicy .typeError
  rw [policyResetMeter, outcome_bind, looked] at run
  rcases outcome_bind_eq_some.mp run with ⟨e, s₁, asked, same⟩ | ⟨total, s₁, asked, run⟩
  · cases same
    exact .inl ⟨⟨e, rfl⟩, h.source_asked grounded feeds asked⟩
  have kept : Represents policyname s₁ t := h.source_asked grounded feeds asked
  cases scale_eq : item t.policy.scales name with
  | error e =>
      rw [outcome_bind, scale_eq] at run
      cases run
      exact .inl ⟨⟨_, rfl⟩, kept⟩
  | ok scale =>
      rw [outcome_bind, scale_eq] at run
      have found := item_eq_ok.mp scale_eq
      obtain ⟨s₂, set, represented⟩ := kept.outcome_setMeter registered
        (ProportionalPolicy.mem_parts.mpr ⟨scale, found⟩)
        (total.stateOfCharge * scale.stateOfCharge)
      have same := set.symm.trans run
      cases same
      exact .inr ⟨total, scale, rfl, found, represented⟩

/-- `set_current` of the policy, called for one of its batteries: either nothing happens to the
policy, or the current is noted and the source is set. -/
theorem setPolicy_part {r : Except Failure Unit} (grounded : Grounded s.topology)
    (h : Represents policyname s t)
    (run : outcome (setPolicy (getStatus clock limit) (setCurrent clock limit) policyname name
      targetCurrent) s = some (r, s')) :
    (∃ e, r = .error e) ∧ Represents policyname s' t ∨
      ∃ status : BatteryStatus, (∀ env : Environment, env.source 0 = .ok status →
          t.policy.checkCurrent env name targetCurrent = .ok ()) ∧
        Represents policyname s' { t with policy := t.policy.assignCurrent name targetCurrent } := by
  obtain ⟨srcname, looked, feeds⟩ := h.outcome_lookupPolicy .typeError
  rw [setPolicy, outcome_bind, looked] at run
  cases scale_eq : item t.policy.scales name with
  | error e =>
      simp only [Option.bind_some, resume] at run
      rw [outcome_bind, scale_eq] at run
      cases run
      exact .inl ⟨⟨_, rfl⟩, h⟩
  | ok scale =>
      simp only [Option.bind_some, resume] at run
      rw [outcome_bind, scale_eq] at run
      rcases outcome_bind_eq_some.mp run with ⟨e, s₁, asked, same⟩ | ⟨status, s₁, asked, run⟩
      · cases same
        exact .inl ⟨⟨e, rfl⟩, h.source_asked grounded feeds asked⟩
      have kept : Represents policyname s₁ t := h.source_asked grounded feeds asked
      split_ifs at run with high low
      · cases run
        exact .inl ⟨⟨_, rfl⟩, kept⟩
      · cases run
        exact .inl ⟨⟨_, rfl⟩, kept⟩
      · have topology₁ : s₁.topology = s.topology :=
          topology_of_seen (seen_of_runs (asks_getStatus clock deep_false srcname) asked)
        have topology₂ : topology ⟨s₁.directory.modify policyname
            (.onPolicy fun p => p.assignCurrent name targetCurrent), s₁.readings⟩ = s.topology :=
          (topology_of_seen (v := .outline)
            (seen_modify _ fun _ _ => outline_onPolicy _ _)).trans topology₁
        have assigned := kept.onPolicy (fun p => p.assignCurrent name targetCurrent) s₁.readings
        obtain ⟨srcname', looked', -⟩ := assigned.outcome_lookupPolicy .typeError
        rw [modifyNode, outcome_modify_bind, outcome_bind, looked'] at run
        refine .inr ⟨status, fun env source => ?_, ?_⟩
        · rw [ProportionalPolicy.checkCurrent, scale_eq, source]
          simp only [bind, Except.bind, if_neg high, if_neg low]
        · exact assigned.source_set (by rwa [topology₂]) (by rwa [topology₂]) run

/-- What happens in the node, the policy and its batteries can do by themselves. -/
def Refines (policyname : String) (s s' : BOS) : Prop :=
  ∀ t, Registered t → Represents policyname s t →
    ∃ ops t', exec SplitterBattery.step t ops = some t' ∧ Represents policyname s' t'

theorem Refines.of_still (h : ∀ t, Represents policyname s t → Represents policyname s' t) :
    Refines policyname s s' :=
  fun t _ represents => ⟨[], t, rfl, h t represents⟩

theorem registered_exec {t' : SplitterSystem} {ops : List SplitterBattery.Operation}
    (registered : Registered t) (run : exec SplitterBattery.step t ops = some t') :
    Registered t' :=
  exec_kept registered (fun s op s' h next => by
    cases next
    exact SplitterBattery.keeps_call op s h) run

theorem Refines.trans {s₁ s₂ : BOS} (first : Refines policyname s s₁)
    (second : Refines policyname s₁ s₂) : Refines policyname s s₂ := by
  intro t registered h
  obtain ⟨ops, t₁, run, h₁⟩ := first t registered h
  obtain ⟨ops', t₂, run', h₂⟩ := second t₁ (registered_exec registered run) h₁
  exact ⟨ops ++ ops', t₂, by rw [exec_append, run, Option.bind_some, run'], h₂⟩

theorem Refines.one (op : SplitterBattery.Operation) {t' : SplitterSystem}
    (result : after (SplitterBattery.call op) t = t') (h : Represents policyname s' t') :
    ∃ ops t', exec SplitterBattery.step t ops = some t' ∧ Represents policyname s' t' :=
  ⟨[op], t', by rw [exec_one, result], h⟩

theorem after_getStatus {w : World} {status : BatteryStatus}
    (reported : t.policy.getStatus (t.environment w 0) name = .ok status) :
    after (SplitterBattery.call (.getStatus w name)) t =
      t.updateMeter name (w.clock 0) status.current status.current := by
  rw [SplitterBattery.call, after_bind, run_getStatus_ok reported]
  rfl

theorem getStatus_refines {r : Except Failure BatteryStatus} (grounded : Grounded s.topology)
    (found : s.directory.find? name = some ⟨.battery metered (.splitter policyname), parents⟩)
    (run : outcome (getStatus clock limit name) s = some (r, s')) : Refines policyname s s' := by
  intro t registered h
  rcases getStatus_part grounded h registered found run with
    ⟨-, kept⟩ | ⟨status, now, first, second, -, reports, represents⟩
  · exact ⟨[], t, rfl, kept⟩
  · exact Refines.one (.getStatus (answers [first, second] [now] true) name)
      (after_getStatus (reports _ 0 rfl rfl)) represents

theorem resetMeter_refines {r : Except Failure Unit} (grounded : Grounded s.topology)
    (run : outcome (policyResetMeter (getStatus clock limit) policyname name) s = some (r, s')) :
    Refines policyname s s' := by
  intro t registered h
  rcases policyResetMeter_part grounded h registered run with
    ⟨-, kept⟩ | ⟨total, scale, -, found, represents⟩
  · exact ⟨[], t, rfl, kept⟩
  · refine Refines.one (.resetMeter (answers [total] [] true) name) ?_ represents
    have source : (answers [total] [] true).source 0 = .ok total := rfl
    rw [SplitterBattery.call, after, run_resetMeter_ok registered found source]

theorem refresh_refines {r : Except Failure Unit} (grounded : Grounded s.topology)
    (found : s.directory.find? name = some ⟨.battery metered (.splitter policyname), parents⟩)
    (run : outcome (do
      let status ← getStatus clock limit name
      updateMeter clock name status.current status.current) s = some (r, s')) :
    Refines policyname s s' := by
  intro t registered h
  rcases outcome_bind_eq_some.mp run with ⟨e, s₁, read, same⟩ | ⟨status, s₁, read, run⟩
  · cases same
    exact getStatus_refines grounded found read t registered h
  rcases getStatus_part grounded h registered found read with
    ⟨⟨e, raised⟩, -⟩ | ⟨status', now, first, second, same, reports, represents⟩
  · cases raised
  cases same
  rw [outcome_updateMeter] at run
  cases run
  refine Refines.one (.refresh (answers [first, second] [now, clock s₁.readings] true) name) ?_
     (represents.onMeter name _ _)
  rw [SplitterBattery.call, SplitterBattery.refresh, after_bind,
    run_getStatus_ok (reports _ 0 rfl rfl)]
  rfl

theorem runs_setPolicy_outline {entries : List (String × Entry)} (policyname dstname : String)
    (targetCurrent : ℚ) : Runs False (within .outline entries fun _ => True)
      (setPolicy (getStatus clock limit) (setCurrent clock limit) policyname dstname
        targetCurrent) := by
  refine runs_within View.design_finer_outline (fun _ h => h) fun s _ =>
    runs_setPolicy (fun _ _ srcname _ _ _ => ?_) (fun _ _ srcname _ _ _ c => ?_)
      (runs_modifyNode trivial fun _ _ _ _ => design_assignCurrent dstname targetCurrent _)
  · exact runs_reach (runs_getStatus_of_finer clock View.setup_finer_design (deep_false srcname))
      fun _ _ => trivial
  · exact runs_reach (runs_setCurrent clock (deep_false srcname) c) fun _ _ => trivial

theorem after_setCurrent {w : World} {status : BatteryStatus} {t₁ t₂ : SplitterSystem}
    (reported : t.policy.getStatus (t.environment w 0) name = .ok status)
    (asked : t.updateMeter name (w.clock 0) status.current status.current = t₁)
    (checked : t₁.policy.checkCurrent (t₁.environment w 2) name targetCurrent = .ok ())
    (assigned : { t₁ with policy := t₁.policy.assignCurrent name targetCurrent } = t₂) :
    after (SplitterBattery.call (.setCurrent w name targetCurrent)) t =
      match w.setSource t₂.policy.netCurrent with
      | .error _ => t₂
      | .ok _ => after (do
          let newStatus ← SplitterBattery.getStatus w 3 1 name
          modify fun s => s.updateMeter name (w.clock 2) status.current newStatus.current) t₂ := by
  subst assigned
  rw [SplitterBattery.call, SplitterBattery.setCurrent, after_bind, run_getStatus_ok reported, asked]
  have set : (SplitterBattery.onPolicy fun s =>
      s.policy.setCurrent (s.environment w 2) name targetCurrent).run.run t₁ =
      (w.setSource (t₁.policy.assignCurrent name targetCurrent).netCurrent,
        { t₁ with policy := t₁.policy.assignCurrent name targetCurrent }) := by
    change ((t₁.policy.setCurrent (t₁.environment w 2) name targetCurrent).2,
      { t₁ with policy := (t₁.policy.setCurrent (t₁.environment w 2) name targetCurrent).1 }) = _
    rw [ProportionalPolicy.setCurrent, checked]
    rfl
  dsimp only
  rw [after_bind, set]
  cases w.setSource (t₁.policy.assignCurrent name targetCurrent).netCurrent <;> rfl

theorem after_newStatus_ok {w : World} {status : BatteryStatus} {oldCurrent : ℚ}
    (reported : t.policy.getStatus (t.environment w 3) name = .ok status) :
    after (do
      let newStatus ← SplitterBattery.getStatus w 3 1 name
      modify fun s => s.updateMeter name (w.clock 2) oldCurrent newStatus.current) t =
      (t.updateMeter name (w.clock 1) status.current status.current).updateMeter name (w.clock 2)
        oldCurrent status.current := by
  rw [after_bind, run_getStatus_ok reported]
  rfl

theorem after_newStatus_error {w : World} {e : Error} {oldCurrent : ℚ}
    (raised : t.policy.getStatus (t.environment w 3) name = .error e) :
    after (do
      let newStatus ← SplitterBattery.getStatus w 3 1 name
      modify fun s => s.updateMeter name (w.clock 2) oldCurrent newStatus.current) t = t := by
  rw [after_bind, run_getStatus_error raised]

theorem setCurrent_refines {r : Except Failure Unit} {depth : ℕ} (grounded : Grounded s.topology)
    (found : s.directory.find? name = some ⟨.battery metered (.splitter policyname), parents⟩)
    (run : outcome (setSplitter clock (getStatus clock limit) (setCurrent clock limit)
      (getStatus clock depth name) name policyname targetCurrent) s = some (r, s')) :
    Refines policyname s s' := by
  intro t registered h
  rcases outcome_bind_eq_some.mp run with ⟨e, s₁, read, same⟩ | ⟨status, s₁, read, run⟩
  · cases same
    exact getStatus_refines grounded found read t registered h
  have topology₁ : s₁.topology = s.topology :=
    topology_of_seen (seen_of_runs (asks_getStatus clock deep_false name) read)
  rcases getStatus_part grounded h registered found read with
    ⟨⟨e, raised⟩, -⟩ | ⟨status', now, first, second, same, reports, h₁⟩
  · cases raised
  cases same
  have grounded₁ : Grounded s₁.topology := by rwa [topology₁]
  have only (kept : Represents policyname s' (t.updateMeter name now status.current
      status.current)) : ∃ ops t', exec SplitterBattery.step t ops = some t' ∧
        Represents policyname s' t' :=
    Refines.one (.getStatus (answers [first, second] [now] true) name)
      (after_getStatus (reports _ 0 rfl rfl)) kept
  rcases outcome_bind_eq_some.mp run with ⟨e, s₂, set, same⟩ | ⟨_, s₂, set, run⟩
  · cases same
    rcases setPolicy_part grounded₁ h₁ set with ⟨-, kept⟩ | ⟨status₂, checked, h₂⟩
    · exact only kept
    · exact Refines.one
        (.setCurrent (answers [first, second, status₂] [now] false) name targetCurrent)
        (after_setCurrent (reports _ 0 rfl rfl) rfl (checked _ rfl) rfl) h₂
  · rcases setPolicy_part grounded₁ h₁ set with ⟨⟨e, raised⟩, -⟩ | ⟨status₂, checked, h₂⟩
    · cases raised
    have grounded₂ : Grounded s₂.topology := by
      rwa [topology_of_seen (seen_of_runs (runs_setPolicy_outline policyname name targetCurrent) set)]
    have registered₂ : Registered { t.updateMeter name now status.current status.current with
        policy := t.policy.assignCurrent name targetCurrent } := by
      have kept := SplitterBattery.keeps_call
        (.setCurrent (answers [first, second, status₂] [now] false) name targetCurrent) t registered
      rwa [after_setCurrent (reports _ 0 rfl rfl) rfl (checked _ rfl) rfl] at kept
    have part : (t.updateMeter name now status.current status.current).batteries.find? name =
        some (metered.updateMeter now status.current status.current) := by
      rw [SplitterSystem.updateMeter, OrderedMap.find?_modify, if_pos rfl, h.batteries, found,
        Option.bind_some, partMeter, if_pos rfl]
      rfl
    obtain ⟨parents₂, found₂⟩ := h₂.battery part
    rcases outcome_bind_eq_some.mp run with ⟨e, s₃, read', same⟩ | ⟨status', s₃, read', run⟩
    · cases same
      rcases getStatus_part grounded₂ h₂ registered₂ found₂ read' with
        ⟨-, kept⟩ | ⟨status', now', first', second', same, -⟩
      · refine Refines.one
          (.setCurrent (answers [first, second, status₂] [now] true) name targetCurrent) ?_ kept
        refine (after_setCurrent (reports _ 0 rfl rfl) rfl (checked _ rfl) rfl).trans ?_
        exact after_newStatus_error (getStatus_of_source_error (e := .key) rfl)
      · cases same
    · rcases getStatus_part grounded₂ h₂ registered₂ found₂ read' with
        ⟨⟨e, raised⟩, -⟩ | ⟨status'', now', first', second', same, reports', h₃⟩
      · cases raised
      cases same
      rw [outcome_updateMeter] at run
      cases run
      refine Refines.one (.setCurrent (answers [first, second, status₂, first', second']
        [now, now', clock s₃.readings] true) name targetCurrent) ?_ (h₃.onMeter name _ _)
      refine (after_setCurrent (reports _ 0 rfl rfl) rfl (checked _ rfl) rfl).trans ?_
      exact after_newStatus_ok (reports' _ 3 rfl rfl)

end Parts

/-! A battery that is added to the policy. -/

section Children

open SplitterBattery (after askDonor Registered)

variable {policyname name fromName : String} {s s' : BOS} {t : SplitterSystem} {clock : ℕ → ℚ}
  {limit : ℕ} {w : World} {targetStatus fromStatus : BatteryStatus} {scale : Scale}

def joined (w : World) (name : String) (targetStatus : BatteryStatus) (fromName : String) :
    Call Unit := do
  let s ← get
  let result := s.policy.addChild (s.environment w 0) name targetStatus fromName
  modify (askDonor w name fromName)
  let _ ← SplitterBattery.onPolicy fun _ => result
  SplitterBattery.resetMeter w 3 fromName
  SplitterBattery.resetMeter w 4 name

theorem after_makeSplitterBattery (free : t.batteries.find? name = none)
    (other : w.otherNode name = false) :
    after (SplitterBattery.call (.makeSplitterBattery w name targetStatus fromName)) t =
      after (joined w name targetStatus fromName)
        { t with batteries := t.batteries.set name (.new (w.clock 0)) } := by
  rw [SplitterBattery.call, SplitterBattery.makeSplitterBattery, SplitterBattery.after_get_bind,
    free, other]
  rfl

theorem after_joined_error {p : ProportionalPolicy} {e : Error}
    (result : t.policy.addChild (t.environment w 0) name targetStatus fromName = (p, .error e)) :
    after (joined w name targetStatus fromName) t =
      { askDonor w name fromName t with policy := p } := by
  rw [joined, SplitterBattery.after_get_bind, SplitterBattery.after_modify_bind, result]
  rfl

theorem after_joined_ok {p : ProportionalPolicy} {status : BatteryStatus}
    (result : t.policy.addChild (t.environment w 0) name targetStatus fromName = (p, .ok status)) :
    after (joined w name targetStatus fromName) t = after (do
      SplitterBattery.resetMeter w 3 fromName
      SplitterBattery.resetMeter w 4 name) { askDonor w name fromName t with policy := p } := by
  rw [joined, SplitterBattery.after_get_bind, SplitterBattery.after_modify_bind, result]
  rfl

theorem addChild_of_error {e : Error} (raised :
    t.policy.childScale (t.environment w 0) name targetStatus fromName = .error e) :
    t.policy.addChild (t.environment w 0) name targetStatus fromName = (t.policy, .error e) := by
  rw [ProportionalPolicy.addChild, raised]

theorem after_joined_of_silent {e : Error} (silent : w.source 0 = .error e) :
    after (joined w name targetStatus fromName) t = t := by
  have raised : ∃ e', t.policy.childScale (t.environment w 0) name targetStatus fromName =
      .error e' := by
    unfold ProportionalPolicy.childScale
    rw [getStatus_of_source_error silent]
    split_ifs <;> exact ⟨_, rfl⟩
  have unasked : askDonor w name fromName t = t := by
    unfold askDonor
    rw [getStatus_of_source_error silent]
    split_ifs <;> rfl
  obtain ⟨e', raised⟩ := raised
  rw [after_joined_error (addChild_of_error raised), unasked]

structure Asked (t : SplitterSystem) (w : World) (name fromName : String)
    (fromStatus : BatteryStatus) : Prop where
  fresh : name ∉ t.policy.parts
  donor : fromName ∈ t.policy.parts
  reported : t.policy.getStatus (t.environment w 0) fromName = .ok fromStatus

theorem Asked.askDonor_eq (asked : Asked t w name fromName fromStatus) :
    askDonor w name fromName t =
      t.updateMeter fromName (w.clock 1) fromStatus.current fromStatus.current := by
  unfold askDonor
  rw [if_neg (not_or.mpr ⟨asked.fresh, not_not.mpr asked.donor⟩), asked.reported]

theorem Asked.childScale_busy (asked : Asked t w name fromName fromStatus)
    (busy : fromStatus.current ≠ 0) :
    t.policy.childScale (t.environment w 0) name targetStatus fromName =
      .error .batteryInUse := by
  unfold ProportionalPolicy.childScale
  rw [if_neg asked.fresh, if_neg (not_not.mpr asked.donor), asked.reported]
  exact if_pos busy

theorem Asked.childScale_idle (asked : Asked t w name fromName fromStatus)
    (idle : fromStatus.current = 0) :
    t.policy.childScale (t.environment w 0) name targetStatus fromName = (do
      let total ← w.source 2
      let scale ← scaleOf (actualStatus targetStatus fromStatus) total
      return (actualStatus targetStatus fromStatus, scale)) := by
  unfold ProportionalPolicy.childScale scaleOf
  rw [if_neg asked.fresh, if_neg (not_not.mpr asked.donor), asked.reported]
  refine (if_neg (not_not.mpr idle)).trans ?_
  simp only [bind_assoc]
  rfl

theorem topology_asked {n : String} {p : Except Failure BatteryStatus × BOS}
    (run : outcome (getStatus clock limit n) s = some p) : p.2.topology = s.topology :=
  topology_of_seen (seen_of_runs (asks_getStatus clock deep_false n) run)

theorem topology_onPolicy (f : ProportionalPolicy → ProportionalPolicy) (readings : ℕ) :
    topology ⟨s.directory.modify policyname (.onPolicy f), readings⟩ = s.topology :=
  topology_of_seen (v := .outline) (seen_modify _ fun _ _ => outline_onPolicy _ _)

theorem outcome_resetMeter_part (h : Represents policyname s t) (registered : Registered t)
    (managed : name ∈ t.policy.parts) (ask : String → NodeCall BatteryStatus) :
    outcome (resetMeter ask name) s = outcome (policyResetMeter ask policyname name) s := by
  obtain ⟨metered, part⟩ := registered.battery name managed
  obtain ⟨parents, found⟩ := h.battery part
  have looked := outcome_lookup_ok.mpr ⟨rfl, parents, found⟩
  rw [resetMeter, outcome_bind, looked]
  rfl

def divided (t : SplitterSystem) (name fromName : String) (scale rest : Scale) : SplitterSystem :=
  { t with policy := { t.policy.insertChild name scale with
      scales := (t.policy.insertChild name scale).scales.set fromName rest } }

theorem insert_part {r : Except Failure Unit} {donor : Scale} (grounded : Grounded s.topology)
    (h : Represents policyname s t) (kept : (t.policy.insertChild name scale).scales.find? fromName =
      some donor)
    (registered : ∀ rest, donor.sub scale = .ok rest → Registered (divided t name fromName scale rest))
    (run : outcome (do
      modifyNode policyname (.onPolicy fun p => p.insertChild name scale)
      let inserted ← lookupPolicy policyname .attributeError
      let donor ← value (item inserted.2.scales fromName)
      let rest ← value (donor.sub scale)
      modifyNode policyname (.onPolicy fun p => { p with scales := p.scales.set fromName rest })
      resetMeter (getStatus clock limit) fromName) s = some (r, s')) :
    (∃ e, r = .error (.raised e) ∧ donor.sub scale = .error e ∧
        Represents policyname s' { t with policy := t.policy.insertChild name scale }) ∨
      ∃ rest, donor.sub scale = .ok rest ∧
        ((∃ e, r = .error e) ∧ Represents policyname s' (divided t name fromName scale rest) ∨
          ∃ total : BatteryStatus, r = .ok () ∧ Represents policyname s'
            ((divided t name fromName scale rest).setMeter fromName
              (total.stateOfCharge * rest.stateOfCharge))) := by
  have inserted := h.onPolicy (fun p => p.insertChild name scale) s.readings
  obtain ⟨srcname, looked, -⟩ := inserted.outcome_lookupPolicy .attributeError
  rw [modifyNode, outcome_modify_bind, outcome_bind, looked] at run
  simp only [Option.bind_some, resume] at run
  rw [outcome_bind, item_eq_ok.mpr kept] at run
  cases sub : donor.sub scale with
  | error e =>
      refine .inl ⟨e, ?_⟩
      simp only [value, outcome_pure, Option.bind_some, resume, sub, outcome_bind, outcome_throw]
        at run
      cases run
      exact ⟨rfl, rfl, inserted⟩
  | ok rest =>
      refine .inr ⟨rest, rfl, ?_⟩
      simp only [value, outcome_pure, Option.bind_some, resume, sub] at run
      rw [outcome_bind, outcome_pure] at run
      simp only [Option.bind_some, resume] at run
      rw [modifyNode, outcome_modify_bind] at run
      have halved : Represents policyname _ (divided t name fromName scale rest) :=
        inserted.onPolicy (fun p => { p with scales := p.scales.set fromName rest }) s.readings
      have found : (divided t name fromName scale rest).policy.scales.find? fromName =
          some rest := by
        rw [divided, OrderedMap.find?_set, if_pos rfl]
      rw [outcome_resetMeter_part halved (registered rest sub)
        (ProportionalPolicy.mem_parts.mpr ⟨rest, found⟩)] at run
      rcases policyResetMeter_part (by rwa [topology_onPolicy, topology_onPolicy]) halved
        (registered rest sub) run with raised | ⟨total, scale', returned, found', represents⟩
      · exact .inl raised
      · rw [found, Option.some_inj] at found'
        subst found'
        exact .inr ⟨total, returned, represents⟩

/-- What `add_child` comes to: after an exception the policy is as it is by itself where the source
goes silent, and otherwise the meter of the new battery remains to be set. -/
def Joins (policyname : String) (s' : BOS) (t : SplitterSystem) (name : String)
    (targetStatus : BatteryStatus) (fromName : String) (now₀ : ℚ) (r : Except Failure Unit) :
    Prop :=
  ((∃ e, r = .error e) ∧ ∃ sources times, Represents policyname s'
      (after (joined (answers sources (now₀ :: times) true) name targetStatus fromName) t)) ∨
    r = .ok () ∧ ∃ sources times t₃, sources.length = 4 ∧ Represents policyname s' t₃ ∧
      Registered t₃ ∧ name ∈ t₃.policy.parts ∧ ∀ more,
        after (joined (answers (sources ++ more) (now₀ :: times) true) name targetStatus
            fromName) t =
          after (SplitterBattery.resetMeter (answers (sources ++ more) (now₀ :: times) true) 4
            name) t₃

theorem find?_insertChild_donor {p : ProportionalPolicy} {donor : Scale} (fresh : name ∉ p.parts)
    (found : p.scales.find? fromName = some donor) :
    (p.insertChild name scale).scales.find? fromName = some donor := by
  have ne : fromName ≠ name := by
    rintro rfl
    exact fresh (ProportionalPolicy.mem_parts.mpr ⟨donor, found⟩)
  rw [ProportionalPolicy.insertChild, OrderedMap.find?_set, if_neg ne, found]

theorem mem_parts_divided (rest : Scale) :
    name ∈ (divided t name fromName scale rest).policy.parts := by
  rw [ProportionalPolicy.mem_parts, divided, OrderedMap.find?_set]
  split_ifs
  · exact ⟨rest, rfl⟩
  · exact ⟨scale, ProportionalPolicy.find?_insertChild t.policy name scale⟩

variable (targetStatus) in
theorem Asked.childScale_total {total : BatteryStatus} (asked : Asked t w name fromName fromStatus)
    (idle : fromStatus.current = 0) (answered : w.source 2 = .ok total) :
    t.policy.childScale (t.environment w 0) name targetStatus fromName =
      (scaleOf (actualStatus targetStatus fromStatus) total).map fun scale =>
        (actualStatus targetStatus fromStatus, scale) := by
  rw [asked.childScale_idle idle, answered]
  change (scaleOf (actualStatus targetStatus fromStatus) total >>= _) = _
  cases scaleOf (actualStatus targetStatus fromStatus) total <;> rfl

theorem Asked.after_joined_unscaled {e : Error} (asked : Asked t w name fromName fromStatus)
    (raised : t.policy.childScale (t.environment w 0) name targetStatus fromName = .error e) :
    after (joined w name targetStatus fromName) t =
      t.updateMeter fromName (w.clock 1) fromStatus.current fromStatus.current := by
  rw [after_joined_error (addChild_of_error raised), asked.askDonor_eq]
  rfl

section Scaled

variable {donor rest : Scale} {status : BatteryStatus}
  (scaled : t.policy.childScale (t.environment w 0) name targetStatus fromName =
    .ok (status, scale)) (found : t.policy.scales.find? fromName = some donor)

include scaled found

theorem registered_divided (registered : Registered t)
    (battery : ∃ b, t.batteries.find? name = some b) (sub : donor.sub scale = .ok rest)
    (time endcurrent newcurrent : ℚ) :
    Registered (divided (t.updateMeter fromName time endcurrent newcurrent) name fromName scale
      rest) := by
  have battery' :
      ∃ b, (t.updateMeter fromName time endcurrent newcurrent).batteries.find? name = some b := by
    obtain ⟨b, hb⟩ := battery
    rw [SplitterSystem.updateMeter, OrderedMap.find?_modify]
    split_ifs with own
    · exact ⟨_, by rw [← own, hb]; rfl⟩
    · exact ⟨b, hb⟩
  have listed : Registered (t.updateMeter fromName time endcurrent newcurrent) :=
    registered.modify fromName _
  have added := listed.addChild battery' (t.environment w 0) targetStatus fromName
  rw [SplitterSystem.updateMeter, ProportionalPolicy.addChild_of_ok scaled found, sub] at added
  exact added

variable (asked : Asked t w name fromName fromStatus)

include asked

theorem Asked.after_joined_overdrawn {e : Error} (sub : donor.sub scale = .error e) :
    after (joined w name targetStatus fromName) t =
      { t.updateMeter fromName (w.clock 1) fromStatus.current fromStatus.current with
        policy := t.policy.insertChild name scale } := by
  have result := ProportionalPolicy.addChild_of_ok scaled found
  rw [sub] at result
  rw [after_joined_error result, asked.askDonor_eq]

theorem Asked.after_joined_silent {e : Error} (sub : donor.sub scale = .ok rest)
    (silent : w.source 3 = .error e) :
    after (joined w name targetStatus fromName) t =
      divided (t.updateMeter fromName (w.clock 1) fromStatus.current fromStatus.current) name
        fromName scale rest := by
  have result := ProportionalPolicy.addChild_of_ok scaled found
  have source : (t.environment w 0).source 3 = .error e := silent
  rw [sub, source] at result
  rw [after_joined_error result, asked.askDonor_eq]
  rfl

theorem Asked.after_joined_reset {total : BatteryStatus} (registered : Registered t)
    (battery : ∃ b, t.batteries.find? name = some b) (sub : donor.sub scale = .ok rest)
    (answered : w.source 3 = .ok total) :
    after (joined w name targetStatus fromName) t =
      after (SplitterBattery.resetMeter w 4 name)
        ((divided (t.updateMeter fromName (w.clock 1) fromStatus.current fromStatus.current) name
          fromName scale rest).setMeter fromName (total.stateOfCharge * rest.stateOfCharge)) := by
  have result := ProportionalPolicy.addChild_of_ok scaled found
  have source : (t.environment w 0).source 3 = .ok total := answered
  rw [sub, source] at result
  have own : (divided (t.updateMeter fromName (w.clock 1) fromStatus.current fromStatus.current)
      name fromName scale rest).policy.scales.find? fromName = some rest := by
    rw [divided, OrderedMap.find?_set, if_pos rfl]
  have reset := run_resetMeter_ok
    (registered_divided scaled found registered battery sub _ _ _) own answered
  rw [after_joined_ok result, asked.askDonor_eq]
  exact after_bind_ok reset

end Scaled

/-- The second half of `add_child`, once the donor has been found to be idle. -/
theorem child_part {r : Except Failure Unit} {now₀ now : ℚ} {first second : BatteryStatus}
    {srcname : String} (grounded : Grounded s.topology) (feeds : Feeds s.topology srcname policyname)
    (h : Represents policyname s
      (t.updateMeter fromName now fromStatus.current fromStatus.current))
    (registered : Registered t) (battery : ∃ b, t.batteries.find? name = some b)
    (asked : ∀ more, Asked t (answers (first :: second :: more) [now₀, now] true) name fromName
      fromStatus) (idle : fromStatus.current = 0)
    (run : outcome (do
      let total ← getStatus clock limit srcname
      let scale ← value (scaleOf (actualStatus targetStatus fromStatus) total)
      modifyNode policyname (.onPolicy fun p => p.insertChild name scale)
      let inserted ← lookupPolicy policyname .attributeError
      let donor ← value (item inserted.2.scales fromName)
      let rest ← value (donor.sub scale)
      modifyNode policyname (.onPolicy fun p => { p with scales := p.scales.set fromName rest })
      resetMeter (getStatus clock limit) fromName) s = some (r, s')) :
    Joins policyname s' t name targetStatus fromName now₀ r := by
  rcases outcome_bind_eq_some.mp run with ⟨e, s₂, read, same⟩ | ⟨total, s₂, read, run⟩
  · cases same
    refine .inl ⟨⟨e, rfl⟩, [first, second], [now], ?_⟩
    rw [(asked []).after_joined_unscaled (e := .key) ((asked []).childScale_idle idle)]
    exact h.source_asked grounded feeds read
  have kept : Represents policyname s₂ _ := h.source_asked grounded feeds read
  have total_known (more : List BatteryStatus) :=
    (asked (total :: more)).childScale_total targetStatus idle rfl
  cases scale_eq : scaleOf (actualStatus targetStatus fromStatus) total with
  | error e =>
      rw [outcome_bind, scale_eq] at run
      cases run
      refine .inl ⟨⟨_, rfl⟩, [first, second, total], [now], ?_⟩
      rw [(asked [total]).after_joined_unscaled ((total_known []).trans (by rw [scale_eq]; rfl))]
      exact kept
  | ok scale =>
      have scaled (more : List BatteryStatus) : t.policy.childScale (t.environment
          (answers (first :: second :: total :: more) [now₀, now] true) 0) name targetStatus
            fromName = .ok (actualStatus targetStatus fromStatus, scale) := by
        rw [total_known, scale_eq]
        rfl
      obtain ⟨donor, found⟩ := ProportionalPolicy.mem_parts.mp (asked []).donor
      have registered₂ (rest : Scale) (sub : donor.sub scale = .ok rest) :=
        registered_divided (scaled []) found registered battery sub now fromStatus.current
          fromStatus.current
      rw [outcome_bind, scale_eq] at run
      have topology₂ : s₂.topology = s.topology := topology_asked read
      rcases insert_part (by rwa [topology₂]) kept
        (find?_insertChild_donor (asked []).fresh found) registered₂ run with
        ⟨e, raised, sub, represents⟩ | ⟨rest, sub, ⟨⟨e, raised⟩, represents⟩ |
          ⟨fourth, returned, represents⟩⟩
      · refine .inl ⟨⟨_, raised⟩, [first, second, total], [now], ?_⟩
        rw [Asked.after_joined_overdrawn (scaled []) found (asked [total]) sub]
        exact represents
      · refine .inl ⟨⟨e, raised⟩, [first, second, total], [now], ?_⟩
        rw [Asked.after_joined_silent (e := .key) (scaled []) found (asked [total]) sub rfl]
        exact represents
      · exact .inr ⟨returned, [first, second, total, fourth], [now], _, rfl, represents,
          (registered₂ rest sub).modify fromName _, mem_parts_divided rest, fun more =>
            Asked.after_joined_reset (scaled (fourth :: more)) found
              (asked (total :: fourth :: more)) registered battery sub rfl⟩

theorem addChild_part {r : Except Failure Unit} (now₀ : ℚ) (grounded : Grounded s.topology)
    (h : Represents policyname s t) (registered : Registered t)
    (battery : ∃ b, t.batteries.find? name = some b)
    (run : outcome (addChild (getStatus clock limit) policyname name targetStatus fromName) s =
      some (r, s')) : Joins policyname s' t name targetStatus fromName now₀ r := by
  have silent (kept : Represents policyname s' t) : ∃ sources times, Represents policyname s'
      (after (joined (answers sources (now₀ :: times) true) name targetStatus fromName) t) :=
    ⟨[], [], by rw [after_joined_of_silent (e := .key) rfl]; exact kept⟩
  obtain ⟨srcname, looked, feeds⟩ := h.outcome_lookupPolicy .attributeError
  rw [addChild, outcome_bind, looked] at run
  simp only [Option.bind_some, resume] at run
  split_ifs at run with taken managed
  · cases run
    exact .inl ⟨⟨_, rfl⟩, silent h⟩
  · obtain ⟨metered, part⟩ := registered.battery fromName managed
    obtain ⟨parents, found⟩ := h.battery part
    rcases outcome_bind_eq_some.mp run with ⟨e, s₁, read, same⟩ | ⟨fromStatus, s₁, read, run⟩
    · cases same
      rcases getStatus_part grounded h registered found read with ⟨-, kept⟩ | ⟨_, _, _, _, ok, -⟩
      · exact .inl ⟨⟨e, rfl⟩, silent kept⟩
      · cases ok
    rcases getStatus_part grounded h registered found read with
      ⟨⟨e, raised⟩, -⟩ | ⟨status, now, first, second, same, reports, h₁⟩
    · cases raised
    cases same
    have asked (more : List BatteryStatus) : Asked t
        (answers (first :: second :: more) [now₀, now] true) name fromName fromStatus :=
      ⟨taken, managed, reports _ 0 rfl rfl⟩
    have topology₁ : s₁.topology = s.topology := topology_asked read
    split_ifs at run with busy
    · cases run
      refine .inl ⟨⟨_, rfl⟩, [first, second], [now], ?_⟩
      rw [(asked []).after_joined_unscaled ((asked []).childScale_busy busy)]
      exact h₁
    · exact child_part (by rwa [topology₁]) (by rwa [topology₁]) h₁ registered battery asked
        (not_not.mp busy) run
  · cases run
    exact .inl ⟨⟨_, rfl⟩, silent h⟩

theorem makeSplitterBattery_refines {r : Except Failure Unit} (grounded : Grounded s.topology)
    (run : outcome (makeSplitterBattery clock limit name policyname targetStatus fromName) s =
      some (r, s')) : Refines policyname s s' := by
  intro t registered h
  rw [makeSplitterBattery, outcome_newBattery_bind, outcome_addNode_bind] at run
  cases added : s.directory.addNode name (.battery (.new (clock s.readings)) (.splitter policyname))
      {policyname} with
  | none =>
      rw [added] at run
      cases run
      exact ⟨[], t, rfl, h.of_same rfl fun _ => rfl⟩
  | some directory =>
      rw [added] at run
      have h₀ := h.addPart added (s.readings + 1)
      have free : t.batteries.find? name = none := by
        rw [h.batteries, BOSDirectory.find?_eq_none.mpr (BOSDirectory.addNode_eq_some added).1]
        rfl
      have grounded₀ : Grounded (topology ⟨directory, s.readings + 1⟩) :=
        grounded_addNode grounded added (List.forall_mem_singleton.mpr h.mem_keys) _
      have registered₀ := registered.set name (.new (clock s.readings))
      have battery : ∃ b, (t.batteries.set name (.new (clock s.readings))).find? name = some b :=
        ⟨_, by rw [OrderedMap.find?_set, if_pos rfl]⟩
      rcases outcome_bind_eq_some.mp run with ⟨e, s₁, child, same⟩ | ⟨_, s₁, child, run⟩
      · cases same
        rcases addChild_part (clock s.readings) grounded₀ h₀ registered₀ battery child with
          ⟨-, sources, times, represents⟩ | ⟨ok, -⟩
        · exact Refines.one (.makeSplitterBattery (answers sources (clock s.readings :: times) true)
            name targetStatus fromName) (after_makeSplitterBattery free rfl) represents
        · cases ok
      rcases addChild_part (clock s.readings) grounded₀ h₀ registered₀ battery child with
        ⟨⟨e, raised⟩, -⟩ | ⟨-, sources, times, t₃, four, h₃, registered₃, managed, joins⟩
      · cases raised
      rw [outcome_resetMeter_part h₃ registered₃ managed] at run
      have topology₁ : s₁.topology = topology ⟨directory, s.readings + 1⟩ :=
        topology_of_seen (seen_of_runs (runs_addChild (asks_getStatus clock deep_false)
          (fun _ => runs_modifyNode trivial fun _ _ _ _ => outline_onPolicy _ _)
          (runs_resetMeter (asks_getStatus clock deep_false) fromName) targetStatus) child)
      rcases policyResetMeter_part (by rwa [topology₁]) h₃ registered₃ run with
        ⟨-, kept⟩ | ⟨total, scale, -, found, represents⟩
      · refine Refines.one (.makeSplitterBattery (answers (sources ++ [])
          (clock s.readings :: times) true) name targetStatus fromName) ?_ kept
        refine (after_makeSplitterBattery free rfl).trans ((joins []).trans ?_)
        have quiet : (answers (sources ++ []) (clock s.readings :: times) true).source 4 =
            .error .key := by
          change ((sources ++ [])[4]?).elim _ _ = _
          rw [List.append_nil, List.getElem?_eq_none (by omega)]
          rfl
        rw [after, run_resetMeter_error quiet]
      · refine Refines.one (.makeSplitterBattery (answers (sources ++ [total])
          (clock s.readings :: times) true) name targetStatus fromName) ?_ represents
        refine (after_makeSplitterBattery free rfl).trans ((joins [total]).trans ?_)
        have source : (answers (sources ++ [total]) (clock s.readings :: times) true).source 4 =
            .ok total := by
          change ((sources ++ [total])[4]?).elim _ _ = _
          rw [List.getElem?_append_right (by omega), four]
          rfl
        rw [after, run_resetMeter_ok registered₃ found source]

end Children

end BOS

end BatteryOS.V1
