import BatteryOS.Library.Ranked
import BatteryOS.V1.Node

/-! What a call to a V1 node leaves alone. A battery calls those that it is made of, these call
theirs, and everything else in the directory stays as it is. A status call changes nothing but
meters, and charges as far as meters go; setting a current changes currents as well. -/

namespace BatteryOS.V1

/-- A part of what a node consists of, from which it can be seen whom it looks up. -/
structure View where
  see : BOSNode → BOSNode
  sources_see : ∀ node, (see node).sources = node.sources

namespace View

def noMeter : Metered := ⟨0, 0, 0⟩

/-- All but the meters. Of the charge of a pseudo battery there remains how far it is from the
meter. -/
def setup : View where
  see
    | .battery metered (.pseudo status) => .battery noMeter (.pseudo
        { status with stateOfCharge := status.stateOfCharge - metered.meter })
    | .battery _ kind => .battery noMeter kind
    | .policy srcname p => .policy srcname p
  sources_see node := by rcases node with ⟨_, _ | _ | _ | _⟩ | _ <;> rfl

def design : View where
  see
    | .battery _ (.pseudo status) => .battery noMeter (.pseudo
        { status with stateOfCharge := 0, current := 0 })
    | .battery _ kind => .battery noMeter kind
    | .policy srcname p => .policy srcname { p with currents := ∅ }
  sources_see node := by rcases node with ⟨_, _ | _ | _ | _⟩ | _ <;> rfl

def outline : View where
  see
    | .battery _ (.pseudo _) => .battery noMeter (.pseudo ⟨0, 0, 0, 0, 0, 0⟩)
    | .battery _ kind => .battery noMeter kind
    | .policy srcname _ => .policy srcname ⟨∅, ∅⟩
  sources_see node := by rcases node with ⟨_, _ | _ | _ | _⟩ | _ <;> rfl

def Finer (v w : View) : Prop := ∀ a b, v.see a = v.see b → w.see a = w.see b

theorem Finer.of_comp {v w : View} (h : ∀ a, w.see (v.see a) = w.see a) : v.Finer w :=
  fun a b same => by rw [← h a, same, h b]

theorem setup_finer_design : setup.Finer design :=
  .of_comp fun a => by rcases a with ⟨_, _ | _ | _ | _⟩ | _ <;> rfl

theorem design_finer_outline : design.Finer outline :=
  .of_comp fun a => by rcases a with ⟨_, _ | _ | _ | _⟩ | _ <;> rfl

end View

namespace BOS

open Fallible

def seen (v : View) (s : BOS) : List (String × Entry) :=
  s.directory.map.map fun p => (p.1, ⟨v.see p.2.node, p.2.parents⟩)

def rowsOf (entries : List (String × Entry)) : List (String × List String) :=
  entries.map fun p => (p.1, p.2.node.sources)

/-- The names with the names that they look up, in the order in which they have been made. -/
def topology (s : BOS) : List (String × List String) := rowsOf s.directory.map

def Below (rows : List (String × List String)) (n name : String) : Prop :=
  Relation.ReflTransGen (Feeds rows) n name

section Views

variable {v w : View} {s s' : BOS} {name n : String} {entry : Entry} {f : BOSNode → BOSNode}

theorem rowsOf_seen (v : View) (s : BOS) : rowsOf (s.seen v) = s.topology := by
  rw [rowsOf, seen, List.map_map, topology, rowsOf]
  refine List.map_congr_left fun p _ => ?_
  simp only [Function.comp_apply, v.sources_see]

theorem topology_keys (s : BOS) : s.topology.map Prod.fst = s.directory.keys := by
  rw [topology, rowsOf, List.map_map]
  rfl

theorem topology_of_seen (same : s'.seen v = s.seen v) : s'.topology = s.topology := by
  rw [← rowsOf_seen v, same, rowsOf_seen]

theorem seen_of_find? (found : s.directory.find? name = some entry) :
    (name, (⟨v.see entry.node, entry.parents⟩ : Entry)) ∈ s.seen v :=
  List.mem_map.mpr ⟨(name, entry), BOSDirectory.mem_of_find? found, rfl⟩

theorem row_of_find? (found : s.directory.find? name = some entry) :
    (name, entry.node.sources) ∈ s.topology :=
  List.mem_map.mpr ⟨(name, entry), BOSDirectory.mem_of_find? found, rfl⟩

theorem find?_of_subset (kept : s.seen v ⊆ s'.seen v)
    (found : s.directory.find? name = some entry) :
    ∃ later, s'.directory.find? name = some later ∧ v.see later.node = v.see entry.node ∧
      later.parents = entry.parents := by
  obtain ⟨p, hp, eq⟩ := List.mem_map.mp (kept (seen_of_find? found))
  obtain ⟨rfl, entries⟩ := Prod.mk.inj eq
  have fields := Entry.mk.inj entries
  exact ⟨p.2, BOSDirectory.find?_of_mem hp, fields.1, fields.2⟩

theorem find?_of_seen (same : s'.seen v = s.seen v)
    (found : s.directory.find? name = some entry) :
    ∃ later, s'.directory.find? name = some later ∧ v.see later.node = v.see entry.node ∧
      later.parents = entry.parents :=
  find?_of_subset (same ▸ List.Subset.refl _) found

theorem seen_finer (finer : v.Finer w) (same : s'.seen v = s.seen v) : s'.seen w = s.seen w := by
  have keep : ∀ xs ys : List (String × Entry),
      xs.map (fun p => (p.1, (⟨v.see p.2.node, p.2.parents⟩ : Entry))) =
        ys.map (fun p => (p.1, (⟨v.see p.2.node, p.2.parents⟩ : Entry))) →
      xs.map (fun p => (p.1, (⟨w.see p.2.node, p.2.parents⟩ : Entry))) =
        ys.map (fun p => (p.1, (⟨w.see p.2.node, p.2.parents⟩ : Entry))) := by
    intro xs
    induction xs with
    | nil =>
        intro ys h
        rw [List.map_nil, eq_comm, List.map_eq_nil_iff] at h
        rw [h]
    | cons x rest ih =>
        intro ys h
        cases ys with
        | nil => cases h
        | cons y others =>
            rw [List.map_cons, List.map_cons, List.cons.injEq, Prod.mk.injEq,
              Entry.mk.injEq] at h
            obtain ⟨⟨key, view, parents⟩, h⟩ := h
            rw [List.map_cons, List.map_cons, ih others h, key, finer _ _ view, parents]
  exact keep _ _ same

theorem seen_modify (readings : ℕ)
    (keeps : ∀ entry, s.directory.find? name = some entry → v.see (f entry.node) =
      v.see entry.node) :
    seen v ⟨s.directory.modify name f, readings⟩ = s.seen v := by
  unfold seen BOSDirectory.modify
  rw [List.map_map]
  refine List.map_congr_left fun p hp => ?_
  by_cases own : p.1 = name
  · have found : s.directory.find? name = some p.2 := BOSDirectory.find?_of_mem (own ▸ hp)
    simp only [Function.comp_apply, if_pos own, keeps _ found]
  · simp only [Function.comp_apply, if_neg own]

/-- A call may change the batteries that it can reach, and these only as far as it cannot be
seen. -/
def within (v : View) (entries : List (String × Entry)) (reach : String → Prop) : Guard BOS where
  holds s := s.seen v = entries
  allows s s' := s'.seen v = s.seen v ∧
    ∀ n, ¬ reach n → s'.directory.find? n = s.directory.find? n
  refl _ := ⟨rfl, fun _ _ => rfl⟩
  trans _ _ _ first second :=
    ⟨second.1.trans first.1, fun n hn => (second.2 n hn).trans (first.2 n hn)⟩
  keeps _ _ holds allowed := allowed.1.trans holds

end Views

section Rules

variable {total : Prop} {G : Guard BOS} {v w : View} {entries : List (String × Entry)}
  {reach reach' : String → Prop} {s : BOS} {name : String} {f : BOSNode → BOSNode} {α : Type}

theorem runs_value (x : Except Error α) : Runs total G (value x) := by
  cases x with
  | error e => exact Runs.throw _
  | ok a => exact Runs.pure a

theorem runsAt_lookup {rest : BOSNode → NodeCall α}
    (found : ∀ entry, s.directory.find? name = some entry → RunsAt total G (rest entry.node) s) :
    RunsAt total G (lookup name >>= rest) s := by
  cases there : s.directory.find? name with
  | none =>
      refine .of_outcome (p := (.error (.raised .badName), s)) ?_ (G.refl s)
      rw [outcome_bind, lookup, outcome_get_bind, there]
      rfl
  | some entry =>
      have run : outcome (lookup name >>= rest) s = outcome (rest entry.node) s := by
        rw [outcome_bind, lookup, outcome_get_bind, there]
        rfl
      unfold RunsAt
      rw [run]
      exact found entry there

theorem runs_lookup (name : String) : Runs total G (lookup name) := by
  intro s hs
  rw [← bind_pure (lookup name)]
  exact runsAt_lookup fun entry _ => Runs.pure entry.node s hs

theorem runsAt_lookupPolicy {otherwise : Failure} {rest : String × ProportionalPolicy → NodeCall α}
    (hs : G.holds s) (found : ∀ srcname p parents,
      s.directory.find? name = some ⟨.policy srcname p, parents⟩ →
        RunsAt total G (rest (srcname, p)) s) :
    RunsAt total G (lookupPolicy name otherwise >>= rest) s := by
  rw [lookupPolicy, bind_assoc]
  refine runsAt_lookup fun entry there => ?_
  obtain ⟨node, parents⟩ := entry
  cases node with
  | battery metered kind => exact Runs.throw (α := α) otherwise s hs
  | policy srcname p => exact found srcname p parents there

theorem runs_lookupBattery (name : String) : Runs total G (lookupBattery name) := by
  refine Runs.bind (runs_lookup name) fun node => ?_
  cases node with
  | battery metered kind => exact Runs.pure _
  | policy srcname p => exact Runs.throw _

theorem runs_getMeter (name : String) : Runs total G (getMeter name) :=
  Runs.bind (runs_lookupBattery name) fun _ => Runs.pure _

theorem runs_bosTime (clock : ℕ → ℚ) : Runs total (within v entries reach) (bosTime clock) :=
  Runs.get_bind fun s hs => by
    refine Runs.bind (Runs.modify fun _ _ => ?_) (fun _ => Runs.pure _) s hs
    exact ⟨rfl, fun _ _ => rfl⟩

theorem runs_modifyNode (reached : reach name)
    (keeps : ∀ s, seen v s = entries → ∀ entry, s.directory.find? name = some entry →
      v.see (f entry.node) = v.see entry.node) :
    Runs total (within v entries reach) (modifyNode name f) :=
  Runs.modify fun s hs => ⟨seen_modify _ (keeps s hs), fun _ hn =>
    BOSDirectory.find?_modify_of_ne _ fun same => hn (same ▸ reached)⟩

theorem runs_updateMeter (clock : ℕ → ℚ) (reached : reach name)
    (keeps : ∀ s, seen v s = entries → ∀ entry, s.directory.find? name = some entry →
      ∀ g, v.see (entry.node.onMeter g) = v.see entry.node) (endcurrent newcurrent : ℚ) :
    Runs total (within v entries reach) (updateMeter clock name endcurrent newcurrent) :=
  Runs.bind (runs_bosTime clock) fun _ =>
    runs_modifyNode reached fun s hs entry found => keeps s hs entry found _

theorem runs_within {x : NodeCall α} (finer : v.Finer w) (less : ∀ n, reach n → reach' n)
    (hx : ∀ s, seen w s = entries → Runs total (within v (seen v s) reach) x) :
    Runs total (within w entries reach') x := by
  intro s hs
  have own := hx s hs s rfl
  refine ⟨own.1, fun p hp => ?_⟩
  have allowed := own.2 p hp
  exact ⟨seen_finer finer allowed.1, fun n hn => allowed.2 n fun h => hn (less n h)⟩

theorem runs_reach {x : NodeCall α} (hx : Runs total (within v entries reach) x)
    (less : ∀ n, reach n → reach' n) : Runs total (within v entries reach') x :=
  runs_within (fun _ _ same => same) less fun s hs => by
    subst hs
    exact hx

end Rules

section Methods

variable {total : Prop} {G : Guard BOS} {ask : String → NodeCall BatteryStatus}

theorem runs_aggregate {srcnames : List String} (voltage : ℚ)
    (asks : ∀ a ∈ srcnames, Runs total G (ask a)) :
    Runs total G (aggregate ask voltage srcnames) := by
  refine Runs.bind (Runs.foldlM (fun s a ha => ?_) _) fun s =>
    Runs.bind (runs_value _) fun _ => Runs.bind (runs_value _) fun _ => Runs.pure _
  have asked := asks a ha
  exact Runs.bind (runs_lookupBattery a) fun _ => Runs.bind asked fun _ =>
    Runs.bind asked fun _ => Runs.bind asked fun _ => Runs.bind asked fun _ =>
    Runs.bind (runs_value _) fun _ => Runs.bind asked fun _ => Runs.bind asked fun _ =>
    Runs.bind (runs_value _) fun _ => Runs.bind asked fun _ => Runs.pure _

def AsksSource (total : Prop) (G : Guard BOS) (ask : String → NodeCall BatteryStatus)
    (policyname : String) : Prop :=
  ∀ s, G.holds s → ∀ srcname p parents,
    s.directory.find? policyname = some ⟨.policy srcname p, parents⟩ → Runs total G (ask srcname)

theorem runs_policyStatus {policyname : String} (dstname : String)
    (asks : AsksSource total G ask policyname) :
    Runs total G (policyStatus ask policyname dstname) := by
  intro s hs
  refine runsAt_lookupPolicy hs fun srcname p parents found => ?_
  have asked := asks s hs srcname p parents found
  exact Runs.bind asked (fun _ => Runs.bind (runs_value _) fun _ =>
    Runs.bind (runs_getMeter dstname) fun _ =>
    Runs.bind (Runs.mapM fun n _ => runs_getMeter n) fun _ => Runs.bind asked fun _ =>
    Runs.bind (runs_value _) fun _ => Runs.bind (runs_value _) fun _ => Runs.pure _) s hs

end Methods

/-! A status call changes meters only. -/

section Status

variable {total : Prop} {clock : ℕ → ℚ} {entries : List (String × Entry)} {s : BOS}
  {name : String} {limit : ℕ}

theorem row_of_seen {v : View} {entry : Entry} (hs : s.seen v = entries)
    (found : s.directory.find? name = some entry) :
    (name, entry.node.sources) ∈ rowsOf entries := by
  rw [← hs, rowsOf_seen]
  exact row_of_find? found

theorem feeds_of_find? {v : View} {entry : Entry} {a : String} (hs : s.seen v = entries)
    (found : s.directory.find? name = some entry) (source : a ∈ entry.node.sources) :
    Feeds (rowsOf entries) a name :=
  ⟨entry.node.sources, row_of_seen hs found, source⟩

theorem setup_onMeter {node later : BOSNode} (same : View.setup.see later = View.setup.see node)
    (other : ∀ metered status, node ≠ .battery metered (.pseudo status)) (g : Metered → Metered) :
    View.setup.see (later.onMeter g) = View.setup.see later := by
  rcases later with ⟨metered, _ | status | _ | _⟩ | ⟨srcname, p⟩
  · rfl
  · rcases node with ⟨metered', _ | status' | _ | _⟩ | ⟨srcname, p⟩
    · cases same
    · exact absurd rfl (other metered' status')
    · cases same
    · cases same
    · cases same
  · rfl
  · rfl
  · rfl

theorem setup_readPseudo (now : ℚ) (node : BOSNode) :
    View.setup.see (node.readPseudo now) = View.setup.see node := by
  rcases node with ⟨metered, _ | status | _ | _⟩ | ⟨srcname, p⟩
  · rfl
  · have drift : (status.drain now metered).stateOfCharge -
        (metered.updateMeter now status.current status.current).meter =
          status.stateOfCharge - metered.meter := by
      rw [BatteryStatus.drain]
      ring
    simp only [View.setup, BOSNode.readPseudo, drift]
    rfl
  · rfl
  · rfl
  · rfl

theorem runs_updateMeter_setup {reach : String → Prop} {entry : Entry} (hs : s.seen .setup = entries)
    (found : s.directory.find? name = some entry) (reached : reach name)
    (other : ∀ metered status, entry.node ≠ .battery metered (.pseudo status))
    (endcurrent newcurrent : ℚ) :
    Runs total (within .setup entries reach) (updateMeter clock name endcurrent newcurrent) := by
  refine runs_updateMeter clock reached (fun s' hs' entry' found' g => ?_) endcurrent newcurrent
  obtain ⟨later, there, same, -⟩ := find?_of_seen (hs'.trans hs.symm) found
  rw [found', Option.some_inj] at there
  exact setup_onMeter (there ▸ same) other g

/-- A rank that the calls of a node descend, which is asked for where calls are to come to an
end. -/
def Deep (total : Prop) (entries : List (String × Entry)) (limit : ℕ) (name : String) : Prop :=
  total → ∃ rank : String → ℕ, (∀ a b, Feeds (rowsOf entries) a b → rank a < rank b) ∧
    rank name < limit

theorem Deep.feeds {a : String} (deep : Deep total entries (limit + 1) name)
    (feeds : Feeds (rowsOf entries) a name) : Deep total entries limit a := by
  intro asked
  obtain ⟨rank, rises, high⟩ := deep asked
  exact ⟨rank, rises, Nat.lt_of_lt_of_le (rises a name feeds) (Nat.lt_succ_iff.mp high)⟩

theorem Deep.mono {limit' : ℕ} (deep : Deep total entries limit name) (le : limit ≤ limit') :
    Deep total entries limit' name := by
  intro asked
  obtain ⟨rank, rises, high⟩ := deep asked
  exact ⟨rank, rises, Nat.lt_of_lt_of_le high le⟩

theorem runs_getStatus (clock : ℕ → ℚ) (deep : Deep total entries limit name) :
    Runs total (within .setup entries (Below (rowsOf entries) · name))
      (getStatus clock limit name) := by
  induction limit generalizing name with
  | zero =>
      refine Runs.diverge fun asked => ?_
      obtain ⟨rank, -, high⟩ := deep asked
      exact Nat.not_lt_zero _ high
  | succ limit ih =>
      have asks {a b : String} (deep : Deep total entries (limit + 1) b)
          (feeds : Feeds (rowsOf entries) a b) (below : Below (rowsOf entries) b name) :
          Runs total (within .setup entries (Below (rowsOf entries) · name))
            (getStatus clock limit a) :=
        runs_reach (ih (deep.feeds feeds)) fun n hn => (hn.tail feeds).trans below
      intro s hs
      rw [getStatus]
      refine runsAt_lookup fun entry found => ?_
      obtain ⟨node, parents⟩ := entry
      rcases node with ⟨metered, voltage | status | ⟨voltage, tolerance, srcnames⟩ | policyname⟩ |
        ⟨srcname, p⟩
      · exact Runs.pure _ s hs
      · exact Runs.bind (runs_bosTime clock) (fun now =>
          Runs.bind (runs_modifyNode .refl fun _ _ _ _ => setup_readPseudo now _)
            fun _ => Runs.pure _) s hs
      · refine Runs.bind (runs_aggregate voltage fun a ha =>
          asks deep (feeds_of_find? hs found ha) .refl) (fun status =>
            Runs.bind (runs_updateMeter_setup hs found .refl (fun _ _ h => ?_) _ _)
              fun _ => Runs.pure _) s hs
        cases h
      · have policy : Feeds (rowsOf entries) policyname name :=
          feeds_of_find? hs found List.mem_cons_self
        refine Runs.bind (runs_policyStatus name fun s' hs' srcname p parents' found' => ?_)
          (fun status =>
            Runs.bind (runs_updateMeter_setup hs found .refl (fun _ _ h => ?_) _ _)
              fun _ => Runs.pure _) s hs
        · exact asks ((deep.feeds policy).mono (Nat.le_succ _))
            (feeds_of_find? hs' found' List.mem_cons_self) (.single policy)
        · cases h
      · exact Runs.throw (α := BatteryStatus) Failure.typeError s hs

theorem runs_refresh (clock : ℕ → ℚ) (deep : Deep total entries limit name) :
    Runs total (within .setup entries (Below (rowsOf entries) · name))
      (refresh clock limit name) := by
  induction limit generalizing name with
  | zero =>
      refine Runs.diverge fun asked => ?_
      obtain ⟨rank, -, high⟩ := deep asked
      exact Nat.not_lt_zero _ high
  | succ limit ih =>
      have own := runs_getStatus clock deep
      intro s hs
      rw [refresh]
      refine runsAt_lookup fun entry found => ?_
      obtain ⟨node, parents⟩ := entry
      rcases node with ⟨metered, voltage | status | ⟨voltage, tolerance, srcnames⟩ | policyname⟩ |
        ⟨srcname, p⟩
      · exact Runs.pure _ s hs
      · exact Runs.throw (α := Unit) Failure.notImplemented s hs
      · refine Runs.bind own (fun status =>
          runs_updateMeter_setup hs found .refl (fun _ _ h => ?_) _ _) s hs
        cases h
      · have policy : Feeds (rowsOf entries) policyname name :=
          feeds_of_find? hs found List.mem_cons_self
        refine Runs.bind (runs_reach (ih (deep.feeds policy)) fun n hn => hn.tail policy)
          (fun _ => Runs.bind own fun status =>
            runs_updateMeter_setup hs found .refl (fun _ _ h => ?_) _ _) s hs
        cases h
      · exact Runs.pure _ s hs

end Status

/-! A current that is set changes currents and meters only. -/

section Currents

variable {total : Prop} {clock : ℕ → ℚ} {entries : List (String × Entry)} {s : BOS}
  {name : String} {limit : ℕ} {reach : String → Prop} {ask : String → NodeCall BatteryStatus}
  {set : String → ℚ → NodeCall Unit} {own : NodeCall BatteryStatus}

theorem design_onMeter (g : Metered → Metered) (node : BOSNode) :
    View.design.see (node.onMeter g) = View.design.see node := by
  rcases node with ⟨metered, _ | _ | _ | _⟩ | _ <;> rfl

theorem design_setCurrent (targetCurrent : ℚ) (node : BOSNode) :
    View.design.see (node.onStatus fun status => { status with current := targetCurrent }) =
      View.design.see node := by
  rcases node with ⟨metered, _ | _ | _ | _⟩ | _ <;> rfl

theorem design_assignCurrent (dstname : String) (targetCurrent : ℚ) (node : BOSNode) :
    View.design.see (node.onPolicy fun p => p.assignCurrent dstname targetCurrent) =
      View.design.see node := by
  rcases node with ⟨metered, _ | _ | _ | _⟩ | _ <;> rfl

theorem runs_updateMeter_design (reached : reach name) (endcurrent newcurrent : ℚ) :
    Runs total (within .design entries reach) (updateMeter clock name endcurrent newcurrent) :=
  runs_updateMeter clock reached (fun _ _ _ _ g => design_onMeter g _) endcurrent newcurrent

theorem Deep.of_rows {entries' : List (String × Entry)} (deep : Deep total entries limit name)
    (rows : rowsOf entries' = rowsOf entries) : Deep total entries' limit name := by
  unfold Deep
  rwa [rows]

theorem runs_getStatus_of_finer {v : View} (clock : ℕ → ℚ) (finer : View.setup.Finer v)
    (deep : Deep total entries limit name) :
    Runs total (within v entries (Below (rowsOf entries) · name)) (getStatus clock limit name) := by
  refine runs_within finer (fun _ hn => hn) fun s hs => ?_
  have rows : rowsOf (s.seen .setup) = rowsOf entries := by
    rw [rowsOf_seen, ← rowsOf_seen v, hs]
  rw [← rows]
  exact runs_getStatus clock (deep.of_rows rows)

theorem runs_setPseudo {G : Guard BOS} {targetCurrent : ℚ} (asked : Runs total G own)
    (assigns : Runs total G (modifyNode name
      (.onStatus fun status => { status with current := targetCurrent })))
    (updates : ∀ c c', Runs total G (updateMeter clock name c c')) :
    Runs total G (setPseudo clock own name targetCurrent) := by
  refine Runs.bind asked fun status => ?_
  split_ifs
  · exact Runs.bind assigns fun _ => Runs.bind asked fun _ => updates _ _
  · exact Runs.throw _

theorem runs_setSources {G : Guard BOS} {share : String → NodeCall ℚ} {srcnames : List String}
    (shares : ∀ a ∈ srcnames, Runs total G (share a))
    (sets : ∀ a ∈ srcnames, ∀ c, Runs total G (set a c)) :
    Runs total G (setSources set share srcnames) :=
  Runs.forM fun a ha => Runs.bind (shares a ha) fun c => sets a ha c

theorem runs_distribute {G : Guard BOS} {srcnames : List String} (targetCurrent : ℚ)
    (asked : Runs total G own) (asks : ∀ a ∈ srcnames, Runs total G (ask a))
    (sets : ∀ a ∈ srcnames, ∀ c, Runs total G (set a c)) :
    Runs total G (distribute ask set own srcnames targetCurrent) := by
  unfold distribute
  split_ifs
  · refine Runs.bind asked fun _ => Runs.bind (runs_value _) fun time =>
      runs_setSources (fun a ha => ?_) sets
    exact Runs.bind (Runs.bind (runs_lookupBattery a) fun _ =>
      Runs.bind (asks a ha) fun _ => Runs.pure _) fun _ => runs_value _
  · refine Runs.bind asked fun _ => Runs.bind asked fun _ => Runs.bind (runs_value _) fun time =>
      runs_setSources (fun a ha => ?_) sets
    exact Runs.bind (Runs.bind (runs_lookupBattery a) fun _ => Runs.bind (asks a ha) fun _ =>
      Runs.bind (asks a ha) fun _ => Runs.pure _) fun _ => runs_value _
  · exact runs_setSources (fun _ _ => Runs.pure _) sets

theorem runs_setAggregator {G : Guard BOS} {srcnames : List String} (targetCurrent : ℚ)
    (asked : Runs total G own) (asks : ∀ a ∈ srcnames, Runs total G (ask a))
    (sets : ∀ a ∈ srcnames, ∀ c, Runs total G (set a c))
    (updates : ∀ c c', Runs total G (updateMeter clock name c c')) :
    Runs total G (setAggregator clock ask set own name srcnames targetCurrent) := by
  refine Runs.bind asked fun status => Runs.bind asked fun range => ?_
  split_ifs
  · exact Runs.bind (Runs.forM fun a _ => Runs.bind (runs_lookup a) fun _ => Runs.pure _)
      fun _ => Runs.bind (runs_distribute targetCurrent asked asks sets) fun _ =>
      Runs.bind asked fun _ => updates _ _
  · exact Runs.throw _

def SetsSource (total : Prop) (G : Guard BOS) (set : String → ℚ → NodeCall Unit)
    (policyname : String) : Prop :=
  ∀ s, G.holds s → ∀ srcname p parents,
    s.directory.find? policyname = some ⟨.policy srcname p, parents⟩ →
      ∀ c, Runs total G (set srcname c)

theorem runs_setPolicy {G : Guard BOS} {policyname dstname : String} {targetCurrent : ℚ}
    (asks : AsksSource total G ask policyname) (sets : SetsSource total G set policyname)
    (assigns : Runs total G (modifyNode policyname
      (.onPolicy fun p => p.assignCurrent dstname targetCurrent))) :
    Runs total G (setPolicy ask set policyname dstname targetCurrent) := by
  intro s hs
  refine runsAt_lookupPolicy hs fun srcname p parents found => ?_
  refine Runs.bind (runs_value _) (fun scale =>
    Runs.bind (asks s hs srcname p parents found) fun status => ?_) s hs
  dsimp only
  split_ifs
  · exact Runs.throw _
  · exact Runs.throw _
  · refine Runs.bind assigns fun _ s' hs' => ?_
    exact runsAt_lookupPolicy hs' fun _ _ _ _ => sets s hs srcname p parents found _ s' hs'

theorem runs_setCurrent (clock : ℕ → ℚ) (deep : Deep total entries limit name)
    (targetCurrent : ℚ) :
    Runs total (within .design entries (Below (rowsOf entries) · name))
      (setCurrent clock limit name targetCurrent) := by
  induction limit generalizing name targetCurrent with
  | zero =>
      refine Runs.diverge fun asked => ?_
      obtain ⟨rank, -, high⟩ := deep asked
      exact Nat.not_lt_zero _ high
  | succ limit ih =>
      have asks {a b : String} (deep : Deep total entries (limit + 1) b)
          (feeds : Feeds (rowsOf entries) a b) (below : Below (rowsOf entries) b name) :
          Runs total (within .design entries (Below (rowsOf entries) · name))
            (getStatus clock limit a) :=
        runs_reach (runs_getStatus_of_finer clock View.setup_finer_design (deep.feeds feeds))
          fun n hn => (hn.tail feeds).trans below
      have sets {a b : String} (deep : Deep total entries (limit + 1) b)
          (feeds : Feeds (rowsOf entries) a b) (below : Below (rowsOf entries) b name) (c : ℚ) :
          Runs total (within .design entries (Below (rowsOf entries) · name))
            (setCurrent clock limit a c) :=
        runs_reach (ih (deep.feeds feeds) c) fun n hn => (hn.tail feeds).trans below
      have own := runs_getStatus_of_finer clock View.setup_finer_design deep
      intro s hs
      rw [setCurrent]
      refine runsAt_lookup fun entry found => ?_
      obtain ⟨node, parents⟩ := entry
      rcases node with ⟨metered, voltage | status | ⟨voltage, tolerance, srcnames⟩ | policyname⟩ |
        ⟨srcname, p⟩
      · dsimp only
        unfold setNull
        split_ifs
        · exact Runs.throw _ s hs
        · exact Runs.pure _ s hs
      · exact runs_setPseudo own
          (runs_modifyNode .refl fun _ _ _ _ => design_setCurrent targetCurrent _)
          (runs_updateMeter_design .refl) s hs
      · exact runs_setAggregator targetCurrent own
          (fun a ha => asks deep (feeds_of_find? hs found ha) .refl)
          (fun a ha => sets deep (feeds_of_find? hs found ha) .refl)
          (runs_updateMeter_design .refl) s hs
      · have policy : Feeds (rowsOf entries) policyname name :=
          feeds_of_find? hs found List.mem_cons_self
        have lower := (deep.feeds policy).mono (Nat.le_succ _)
        refine Runs.bind own (fun status => Runs.bind (runs_setPolicy ?_ ?_
          (runs_modifyNode (.single policy) fun _ _ _ _ =>
            design_assignCurrent name targetCurrent _)) fun _ =>
          Runs.bind own fun _ => runs_updateMeter_design .refl _ _) s hs
        · exact fun s' hs' srcname p parents' found' => asks lower
            (feeds_of_find? hs' found' List.mem_cons_self) (.single policy)
        · exact fun s' hs' srcname p parents' found' => sets lower
            (feeds_of_find? hs' found' List.mem_cons_self) (.single policy)
      · exact Runs.throw (α := Unit) Failure.typeError s hs

end Currents

end BOS

end BatteryOS.V1
