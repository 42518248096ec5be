import BatteryOS.Library.Ranked
import BatteryOS.V2.Topology

/-! The graph of a directory over whole runs. New edges lead to new batteries, so that there is no
cycle. A child stands on its policy only, and a policy on its source only, whatever is built on top
of them later. -/

namespace BatteryOS.V2

namespace BOSDirectory

/-- The graph without cycles, whose children stand on their policies and these on their sources. -/
structure Linked (d : BOSDirectory) : Prop extends Sound d where
  ranked : Ranked fun p c => c ∈ d.getChildren p
  child : ∀ cn policyName, (d.getBattery cn).map StoredBattery.kind = some (.splitted policyName) →
    ∃ name policy, policyName = some name ∧
      (d.getBattery name).map StoredBattery.kind = some (.balSplitter policy) ∧
      cn ∈ policy.childNames ∧ ∀ p, cn ∈ d.getChildren p ↔ p = name
  policy : ∀ name policy,
    (d.getBattery name).map StoredBattery.kind = some (.balSplitter policy) →
    ∀ p, name ∈ d.getChildren p ↔ p = policy.srcName

variable {d d' : BOSDirectory} {name : String}

theorem linked_empty : Linked empty where
  toSound := sound_empty
  ranked := ⟨fun _ => 0, fun p c edge => by cases edge⟩
  child cn policyName h := by cases h
  policy name policy h := by cases h

theorem getBattery_of_free (free : d.nameExists name = false) : d.getBattery name = none := by
  cases stored : d.getBattery name with
  | none => rfl
  | some battery =>
      rw [nameExists_iff.mpr ⟨battery, stored⟩] at free
      cases free

structure Grown (d d' : BOSDirectory) (name : String) (sources : List String) : Prop where
  free : d.nameExists name = false
  kind : ∃ battery, d'.getBattery name = some battery ∧
    (battery.kind = .physical ∨ battery.kind = .aggregate)
  other : ∀ other, other ≠ name → d'.getBattery other = d.getBattery other
  apart : name ∉ sources
  old : ∀ p c, c ∈ d.getChildren p → c ∈ d'.getChildren p
  new : ∀ p c, c ∈ d'.getChildren p → c ∈ d.getChildren p ∨ c = name ∧ p ∈ sources

section Grown

variable {sources : List String}

theorem Grown.kind_of_part (h : Grown d d' name sources) {other : String} {kind : BatteryKind}
    (part : kind ≠ .physical ∧ kind ≠ .aggregate)
    (stored : (d'.getBattery other).map StoredBattery.kind = some kind) :
    other ≠ name ∧ (d.getBattery other).map StoredBattery.kind = some kind := by
  have ne : other ≠ name := by
    rintro rfl
    obtain ⟨battery, made, plain⟩ := h.kind
    rw [made, Option.map_some, Option.some.injEq] at stored
    rcases plain with same | same
    · exact part.1 (stored.symm.trans same)
    · exact part.2 (stored.symm.trans same)
  exact ⟨ne, by rwa [h.other other ne] at stored⟩

theorem Grown.mem_iff (h : Grown d d' name sources) {c : String} (ne : c ≠ name) (p : String) :
    c ∈ d'.getChildren p ↔ c ∈ d.getChildren p :=
  ⟨fun edge => (h.new p c edge).resolve_right fun new => ne new.1, h.old p c⟩

theorem Linked.grow (linked : d.Linked) (sound : d'.Sound) (h : Grown d d' name sources) :
    d'.Linked where
  toSound := sound
  ranked := by
    refine linked.ranked.extend (fun c => c = name) sources
      (fun p c edge => linked.toSound.fresh edge h.free) (fun p hp same => h.apart (same ▸ hp)) ?_
    exact h.new
  child cn policyName stored := by
    obtain ⟨ne, before⟩ := h.kind_of_part (by simp) stored
    obtain ⟨policyName, policy, same, kind, listed, parents⟩ := linked.child cn policyName before
    refine ⟨policyName, policy, same, ?_, listed, fun p => (h.mem_iff ne p).trans (parents p)⟩
    have there : policyName ≠ name := by
      rintro rfl
      rw [getBattery_of_free h.free] at kind
      cases kind
    rw [h.other policyName there, kind]
  policy other policy stored p := by
    obtain ⟨ne, before⟩ := h.kind_of_part (by simp) stored
    exact (h.mem_iff ne p).trans (linked.policy other policy before p)

end Grown

theorem addBattery_grown (battery : StoredBattery) (free : d.nameExists name = false)
    (plain : battery.kind = .physical ∨ battery.kind = .aggregate) :
    Grown d (d.addBattery name battery).2 name [] where
  free := free
  kind := ⟨battery, by rw [getBattery_addBattery, if_pos rfl, getBattery_of_free free]; rfl, plain⟩
  other other ne := by rw [getBattery_addBattery, if_neg ne]
  apart := List.not_mem_nil
  old p c edge := by rwa [getChildren_addBattery]
  new p c edge := .inl (by rwa [getChildren_addBattery] at edge)

theorem addBattery_of_taken {battery : StoredBattery} (taken : d.nameExists name = true) :
    (d.addBattery name battery).2 = d := by
  unfold addBattery
  rw [if_pos taken]

theorem Linked.addBattery (linked : d.Linked) {battery : StoredBattery}
    (plain : battery.kind = .physical ∨ battery.kind = .aggregate) :
    (d.addBattery name battery).2.Linked := by
  cases taken : d.nameExists name with
  | true =>
      rw [addBattery_of_taken taken]
      exact linked
  | false => exact linked.grow linked.toSound.addBattery (addBattery_grown battery taken plain)

theorem getBattery_addSources {srcNames : List String}
    (run : d.addSources name srcNames = some d') : d'.getBattery = d.getBattery := by
  induction srcNames generalizing d with
  | nil =>
      obtain rfl := Option.some.inj run
      rfl
  | cons src rest ih =>
      simp only [addSources, Option.bind_eq_bind, Option.bind_eq_some_iff, Prod.exists] at run
      obtain ⟨added, d₁, edge, later⟩ := run
      exact (ih later).trans (getBattery_addEdge edge)

theorem addSources_spec {srcNames : List String} (aggregate : d.getBatteryType name = some .aggregate)
    (run : d.addSources name srcNames = some d') :
    name ∉ srcNames ∧
      (∀ p c, c ∈ d.getChildren p → c ∈ d'.getChildren p) ∧
      ∀ p c, c ∈ d'.getChildren p → c ∈ d.getChildren p ∨ c = name ∧ p ∈ srcNames := by
  induction srcNames generalizing d with
  | nil =>
      obtain rfl := Option.some.inj run
      exact ⟨List.not_mem_nil, fun _ _ edge => edge, fun _ _ edge => .inl edge⟩
  | cons src rest ih =>
      simp only [addSources, Option.bind_eq_bind, Option.bind_eq_some_iff, Prod.exists] at run
      obtain ⟨added, d₁, edge, later⟩ := run
      have ne : name ≠ src := by
        rintro rfl
        rw [addEdge_self (by rw [nameExists_eq_isSome_type, aggregate]; rfl)
          (by rw [aggregate]; decide)] at edge
        cases edge
      obtain ⟨apart, old, new⟩ := ih
        (by rw [getBatteryType_addEdge edge, aggregate]) later
      have children : ∀ p, d₁.getChildren p = d.getChildren p ∨
          p = src ∧ d₁.getChildren p = d.getChildren p ++ [name] := by
        intro p
        rcases addEdge_cases edge with rfl | ⟨-, -, rfl⟩
        · exact .inl rfl
        · rw [getChildren, Adjacency.neighbours_push]
          split_ifs with same
          · exact .inr ⟨same, by rw [same]; rfl⟩
          · exact .inl rfl
      refine ⟨List.mem_cons.not.mpr (not_or.mpr ⟨ne, apart⟩), fun p c before => old p c ?_,
        fun p c after => ?_⟩
      · rcases children p with same | ⟨-, same⟩ <;> rw [same]
        · exact before
        · exact List.mem_append_left _ before
      · rcases new p c after with there | ⟨rfl, source⟩
        · rcases children p with same | ⟨rfl, same⟩ <;> rw [same] at there
          · exact .inl there
          · rcases List.mem_append.mp there with there | new
            · exact .inl there
            · exact .inr ⟨List.mem_singleton.mp new, List.mem_cons_self⟩
        · exact .inr ⟨rfl, List.mem_cons_of_mem _ source⟩

theorem Linked.makeAggregator (linked : d.Linked) {srcNames : List String} {maxStalenessMS : ℤ}
    {agg : Option String} (run : d.makeAggregator name srcNames maxStalenessMS = some (agg, d')) :
    d'.Linked := by
  have sound := linked.toSound.makeAggregator run
  unfold BOSDirectory.makeAggregator at run
  split_ifs at run with taken
  · cases run
    exact linked
  · simp only [Option.bind_eq_bind, Option.bind_eq_some_iff] at run
    obtain ⟨d₁, sources, last⟩ := run
    cases last
    have free : d.nameExists name = false := Bool.eq_false_iff.mpr taken
    have grown := addBattery_grown ⟨maxStalenessMS, .aggregate⟩ free (.inr rfl)
    have battery := getBattery_addSources sources
    obtain ⟨apart, old, new⟩ := addSources_spec
      (by rw [getBatteryType_addBattery, if_pos rfl, getBatteryType, getBattery_of_free free]; rfl)
      sources
    refine linked.grow sound ⟨free, by rw [battery]; exact grown.kind, fun other ne => ?_, apart,
      fun p c edge => old p c (grown.old p c edge), fun p c edge => ?_⟩
    · rw [battery, grown.other other ne]
    · rcases new p c edge with there | made
      · exact .inl ((grown.new p c there).resolve_right fun h => by cases h.2)
      · exact .inr made

/-! ### Splitters -/

variable {args : SplitterArgs} {children : List (Option String)}

theorem makeSplitter_cases (sound : d.Sound) (run : d.makeSplitter args = some (children, d')) :
    d' = d ∨ SplitterMade d d' args := by
  by_cases accepted : d.refusesSplitter args = true
  · rw [makeSplitter_of_refused accepted] at run
    cases run
    exact .inl rfl
  · obtain ⟨last, made, result⟩ :=
      makeSplitter_of_apart sound accepted (apart_of_accepted accepted run)
    obtain ⟨-, -, rfl⟩ := (result children d').mp run
    exact .inr made

section SplitterMade

variable (made : SplitterMade d d' args) (sound : d.Sound)
include made sound

theorem SplitterMade.mem_iff (p c : String) : c ∈ d'.getChildren p ↔
    c ∈ d.getChildren p ∨ p = args.srcName ∧ c = args.name ∨
      p = args.name ∧ c ∈ args.childNames := by
  have ne : args.srcName ≠ args.name := by
    intro same
    have free := made.free
    rw [← same, made.source] at free
    cases free
  have none : c ∉ d.getChildren args.name := fun edge => (sound.fresh edge made.free).1 rfl
  rw [made.children]
  split_ifs with policy source
  · subst policy
    simp [none, ne.symm]
  · subst source
    simp [ne]
  · simp [policy, source]

theorem SplitterMade.old {other : String} (stored : d.nameExists other = true) :
    other ≠ args.name ∧ other ∉ args.childNames ∧ d'.getBattery other = d.getBattery other ∧
      ∀ p, other ∈ d'.getChildren p ↔ other ∈ d.getChildren p := by
  have notPolicy : other ≠ args.name := by
    rintro rfl
    rw [made.free] at stored
    cases stored
  have notChild : other ∉ args.childNames := fun child => by
    rw [made.childFree other child] at stored
    cases stored
  refine ⟨notPolicy, notChild, made.other other notPolicy notChild, fun p => ?_⟩
  rw [made.mem_iff sound]
  simp [notPolicy, notChild]

theorem SplitterMade.ranked (ranked : Ranked fun p c => c ∈ d.getChildren p) :
    Ranked fun p c => c ∈ d'.getChildren p := by
  have srcStored := made.old sound made.source
  have first : Ranked fun p c => c ∈ d.getChildren p ∨ p = args.srcName ∧ c = args.name :=
    ranked.extend (fun c => c = args.name) [args.srcName]
      (fun p c edge => sound.fresh edge made.free)
      (fun a ha => by rw [List.mem_singleton.mp ha]; exact srcStored.1)
      fun p c edge => edge.imp_right fun new => ⟨new.2, List.mem_singleton.mpr new.1⟩
  refine first.extend (fun c => c ∈ args.childNames) [args.name]
    (fun p c edge => ?_) (fun a ha => by rw [List.mem_singleton.mp ha]; exact made.apart)
    fun p c edge => ?_
  · rcases edge with edge | ⟨rfl, rfl⟩
    · exact ⟨fun child => (sound.fresh edge (made.childFree p child)).1 rfl,
        fun child => (sound.fresh edge (made.childFree c child)).2 rfl⟩
    · exact ⟨srcStored.2.1, made.apart⟩
  · rcases (made.mem_iff sound p c).mp edge with old | source | ⟨rfl, child⟩
    · exact .inl (.inl old)
    · exact .inl (.inr source)
    · exact .inr ⟨child, List.mem_singleton_self _⟩

end SplitterMade

theorem nameExists_of_kind {kind : BatteryKind}
    (stored : (d.getBattery name).map StoredBattery.kind = some kind) :
    d.nameExists name = true := by
  obtain ⟨battery, there, -⟩ := Option.map_eq_some_iff.mp stored
  exact nameExists_iff.mpr ⟨battery, there⟩

theorem Linked.makeSplitter (linked : d.Linked)
    (run : d.makeSplitter args = some (children, d')) : d'.Linked := by
  have sound := linked.toSound
  rcases makeSplitter_cases sound run with rfl | made
  · exact linked
  have policyKind : (d'.getBattery args.name).map StoredBattery.kind =
      some (.balSplitter args.policy) := by rw [made.policy]; rfl
  have isNew (other : String) (kind : BatteryKind)
      (stored : (d'.getBattery other).map StoredBattery.kind = some kind) :
      other = args.name ∧ kind = .balSplitter args.policy ∨
      other ∈ args.childNames ∧ kind = .splitted (some args.name) ∨
      (d.getBattery other).map StoredBattery.kind = some kind := by
    by_cases policy : other = args.name
    · rw [policy, policyKind] at stored
      exact .inl ⟨policy, (Option.some.inj stored).symm⟩
    · by_cases child : other ∈ args.childNames
      · rw [made.attached other child] at stored
        exact .inr (.inl ⟨child, (Option.some.inj stored).symm⟩)
      · rw [made.other other policy child] at stored
        exact .inr (.inr stored)
  refine ⟨sound.makeSplitter run, made.ranked sound linked.ranked, ?_, ?_⟩
  · intro cn policyName stored
    rcases isNew cn _ stored with ⟨-, kind⟩ | ⟨child, kind⟩ | before
    · cases kind
    · obtain rfl : policyName = some args.name := by injection kind
      refine ⟨args.name, args.policy, rfl, policyKind, child, fun p => ?_⟩
      rw [made.mem_iff sound]
      have noOld : cn ∉ d.getChildren p :=
        fun edge => (sound.fresh edge (made.childFree cn child)).2 rfl
      have notPolicy : cn ≠ args.name := fun same => made.apart (same ▸ child)
      simp [noOld, notPolicy, child]
    · obtain ⟨name, policy, same, kind, listed, parents⟩ := linked.child cn policyName before
      obtain ⟨-, -, -, edges⟩ := made.old sound (nameExists_of_kind before)
      obtain ⟨-, -, battery, -⟩ := made.old sound (nameExists_of_kind kind)
      exact ⟨name, policy, same, by rw [battery, kind], listed, fun p => (edges p).trans (parents p)⟩
  · intro name policy stored p
    rcases isNew name _ stored with ⟨rfl, kind⟩ | ⟨-, kind⟩ | before
    · obtain rfl : policy = args.policy := by injection kind
      rw [made.mem_iff sound]
      have noOld : args.name ∉ d.getChildren p := fun edge => (sound.fresh edge made.free).2 rfl
      simp only [noOld, false_or, and_true]
      exact ⟨fun h => h.elim id fun child => absurd child.2 made.apart, .inl⟩
    · cases kind
    · obtain ⟨-, -, -, edges⟩ := made.old sound (nameExists_of_kind before)
      exact (edges p).trans (linked.policy name policy before p)

theorem Linked.step (linked : d.Linked) {call : Call} (run : d.step call = some d') :
    d'.Linked := by
  have physical (name : String) (maxStalenessMS : ℤ) :
      (d.makePhysical name maxStalenessMS).2.Linked := by
    unfold makePhysical
    split_ifs
    · exact linked
    · exact linked.addBattery (.inl rfl)
  cases call with
  | makeNull name maxStalenessMS => exact Option.some.inj run ▸ physical name maxStalenessMS
  | makePseudo name maxStalenessMS => exact Option.some.inj run ▸ physical name maxStalenessMS
  | makeJBDBMS name maxStalenessMS => exact Option.some.inj run ▸ physical name maxStalenessMS
  | makeNetworkedBattery name maxStalenessMS =>
      exact Option.some.inj run ▸ physical name maxStalenessMS
  | makeDynamic name maxStalenessMS initialized =>
      obtain rfl := Option.some.inj run
      cases initialized
      · exact linked
      · exact linked.addBattery (.inl rfl)
  | makeAggregator name srcNames maxStalenessMS =>
      obtain ⟨made, hmade, rfl⟩ := Option.map_eq_some_iff.mp run
      exact linked.makeAggregator hmade
  | makeSplitter args =>
      obtain ⟨made, hmade, rfl⟩ := Option.map_eq_some_iff.mp run
      exact linked.makeSplitter hmade
  | removeBattery name =>
      obtain ⟨removed, hremoved, rfl⟩ := Option.map_eq_some_iff.mp run
      unfold removeBattery at hremoved
      split_ifs at hremoved
      cases hremoved
      exact linked

/-- The maps mirror each other on stored batteries without cycles, a child has its policy for its
only parent, and a policy its source. -/
structure WellFormed (d : BOSDirectory) : Prop where
  inverse : ∀ p c, (d.getChildren p).count c = (d.getParents c).count p
  stored : ∀ p c, c ∈ d.getChildren p → d.nameExists p ∧ d.nameExists c
  acyclic : ∀ name, ¬ Relation.TransGen (fun p c => c ∈ d.getChildren p) name name
  child : ∀ cn policyName, (d.getBattery cn).map StoredBattery.kind = some (.splitted policyName) →
    ∃ name policy, policyName = some name ∧
      (d.getBattery name).map StoredBattery.kind = some (.balSplitter policy) ∧
      cn ∈ policy.childNames ∧ ∀ p, p ∈ d.getParents cn ↔ p = name
  policy : ∀ name policy,
    (d.getBattery name).map StoredBattery.kind = some (.balSplitter policy) →
    ∀ p, p ∈ d.getParents name ↔ p = policy.srcName

theorem Linked.wellFormed (h : d.Linked) : d.WellFormed where
  inverse p c := (h.toSound.count_parents p c).symm
  stored := h.stored
  acyclic := h.ranked.acyclic
  child cn policyName stored := by
    obtain ⟨name, policy, same, kind, listed, parents⟩ := h.child cn policyName stored
    exact ⟨name, policy, same, kind, listed, fun p => h.inverse.mem_iff.symm.trans (parents p)⟩
  policy name policy stored p := h.inverse.mem_iff.symm.trans (h.policy name policy stored p)

theorem linked_of_exec {calls : List Call} (run : StepRun.exec step empty calls = some d) :
    d.Linked :=
  StepRun.exec_kept linked_empty (fun _ _ _ linked h => linked.step h) run

theorem graph_wellFormed {calls : List Call} (run : StepRun.exec step empty calls = some d) :
    d.WellFormed := (linked_of_exec run).wellFormed

def tower : List Call :=
  [.makeNull "source" 1000, .makeSplitter (halves "a" "b"), .makeAggregator "both" ["a", "b"] 1000,
    .makeSplitter { halves "c" "d" with name := "second", srcName := "both" }]

theorem graph_wellFormed_tower :
    ∃ d, StepRun.exec step empty tower = some d ∧ d.WellFormed := by
  obtain ⟨d, run⟩ := Option.isSome_iff_exists.mp
    (show (StepRun.exec step empty tower).isSome = true by decide +kernel)
  exact ⟨d, run, graph_wellFormed run⟩

end BOSDirectory

end BatteryOS.V2
