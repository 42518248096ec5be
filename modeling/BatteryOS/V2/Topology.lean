import BatteryOS.V2.Directory

/-! What `make_splitter` leaves in a directory. The two maps of a directory mirror each other and
have edges only between stored batteries, so that a name that is free has none. -/

namespace BatteryOS.V2

namespace BOSDirectory

/-- The maps mirror each other, and both ends of an edge are stored. -/
structure Sound (d : BOSDirectory) : Prop where
  inverse : Adjacency.Inverse d.childrenMap d.parentMap
  stored : ∀ p c, c ∈ d.getChildren p → d.nameExists p ∧ d.nameExists c

variable {d d' : BOSDirectory} {name p c : String} {battery : StoredBattery} {result : Bool}

theorem sound_empty : Sound empty where
  inverse := Adjacency.inverse_empty
  stored p c h := by cases h

theorem nameExists_iff : d.nameExists name ↔ ∃ battery, d.getBattery name = some battery :=
  Option.isSome_iff_exists

theorem nameExists_eq_isSome_type : d.nameExists name = (d.getBatteryType name).isSome := by
  rw [getBatteryType, Option.isSome_map]
  rfl

theorem Sound.count_parents (h : d.Sound) (p c : String) :
    (d.getParents c).count p = (d.getChildren p).count c :=
  (h.inverse p c).symm

theorem Sound.count_eq_zero (h : d.Sound) (free : ¬ (d.nameExists p ∧ d.nameExists c)) :
    (d.getChildren p).count c = 0 :=
  List.count_eq_zero.mpr fun edge => free (h.stored p c edge)

theorem Sound.fresh (h : d.Sound) {p c : String} (edge : c ∈ d.getChildren p)
    (free : d.nameExists name = false) : p ≠ name ∧ c ≠ name := by
  obtain ⟨hp, hc⟩ := h.stored p c edge
  refine ⟨?_, ?_⟩
  · rintro rfl
    rw [free] at hp
    cases hp
  · rintro rfl
    rw [free] at hc
    cases hc

/-! ### Batteries -/

theorem getBattery_addBattery (d : BOSDirectory) (name other : String) (battery : StoredBattery) :
    (d.addBattery name battery).2.getBattery other =
      if other = name then some ((d.getBattery name).getD battery) else d.getBattery other := by
  unfold addBattery
  split_ifs with taken same same
  · obtain ⟨b, hb⟩ := nameExists_iff.mp taken
    rw [same, hb, Option.getD_some]
  · rfl
  · exact (OrderedMap.find?_insert _ _ _ _).trans (if_pos same)
  · exact (OrderedMap.find?_insert _ _ _ _).trans (if_neg same)

theorem getBatteryType_addBattery (d : BOSDirectory) (name other : String)
    (battery : StoredBattery) :
    (d.addBattery name battery).2.getBatteryType other =
      if other = name then some ((d.getBatteryType name).getD battery.kind.type)
      else d.getBatteryType other := by
  rw [getBatteryType, getBattery_addBattery]
  split_ifs with same
  · rw [getBatteryType]
    cases d.getBattery name <;> rfl
  · rfl

theorem nameExists_addBattery_iff :
    (d.addBattery name battery).2.nameExists p ↔ p = name ∨ d.nameExists p := by
  rw [nameExists_eq_isSome_type, nameExists_eq_isSome_type, getBatteryType_addBattery]
  split_ifs with same <;> simp [same]

@[simp] theorem getChildren_addBattery :
    (d.addBattery name battery).2.getChildren p = d.getChildren p := by
  unfold addBattery
  split_ifs
  · rfl
  · exact Adjacency.neighbours_insert_nil _ _ _

@[simp] theorem getParents_addBattery :
    (d.addBattery name battery).2.getParents c = d.getParents c := by
  unfold addBattery
  split_ifs
  · rfl
  · exact Adjacency.neighbours_insert_nil _ _ _

theorem Sound.addBattery (h : d.Sound) : (d.addBattery name battery).2.Sound where
  inverse p c := by
    change ((d.addBattery name battery).2.getChildren p).count c =
      ((d.addBattery name battery).2.getParents c).count p
    rw [getChildren_addBattery, getParents_addBattery]
    exact h.inverse p c
  stored p c edge := by
    rw [getChildren_addBattery] at edge
    exact (h.stored p c edge).imp (fun hp => nameExists_addBattery_iff.mpr (.inr hp)) fun hc =>
      nameExists_addBattery_iff.mpr (.inr hc)

/-! ### Edges -/

theorem addEdge_cases (h : d.addEdge p c = some (result, d')) :
    d' = d ∨ d.nameExists p ∧ d.nameExists c ∧
      d' = { d with childrenMap := d.childrenMap.push p c, parentMap := d.parentMap.push c p } := by
  unfold addEdge at h
  split_ifs at h with missing
  · cases h
    exact .inl rfl
  · cases h
    simp only [Bool.not_eq_true, Bool.or_eq_true, decide_eq_true_eq, not_or,
      Bool.not_eq_false] at missing
    exact .inr ⟨missing.1, missing.2, rfl⟩

theorem addEdge_self (stored : d.nameExists p) (virtual : d.getBatteryType p ≠ some .physical) :
    d.addEdge p p = none := by
  simp [addEdge, stored, virtual]

theorem addEdge_of_ne (hp : d.nameExists p) (hc : d.nameExists c) (ne : p ≠ c) :
    d.addEdge p c = some (true,
      { d with childrenMap := d.childrenMap.push p c, parentMap := d.parentMap.push c p }) := by
  simp [addEdge, hp, hc, ne]

theorem getBattery_addEdge (h : d.addEdge p c = some (result, d')) :
    d'.getBattery = d.getBattery := by
  rcases addEdge_cases h with rfl | ⟨-, -, rfl⟩ <;> rfl

theorem Sound.addEdge (sound : d.Sound) (h : d.addEdge p c = some (result, d')) : d'.Sound := by
  rcases addEdge_cases h with rfl | ⟨hp, hc, rfl⟩
  · exact sound
  · refine ⟨sound.inverse.push p c, fun q a edge => ?_⟩
    rw [getChildren, Adjacency.neighbours_push] at edge
    split_ifs at edge with same
    · subst same
      rcases List.mem_append.mp edge with edge | edge
      · exact sound.stored q a edge
      · obtain rfl := List.mem_singleton.mp edge
        exact ⟨hp, hc⟩
    · exact sound.stored q a edge

/-! ### Attachments -/

section Attachment

variable {σ : Type} {getStatusOf : List String → String → σ → Option σ} {sp sp' : σ}

theorem attachToPolicy_cases
    (h : d.attachToPolicy getStatusOf sp c name = some (result, d', sp')) :
    d' = d ∨ d.getBatteryType c = some .splitted ∧
      d' = { d with
        nameStorageMap := d.nameStorageMap.modify c fun child =>
          { child with kind := .splitted (some name) } } := by
  unfold attachToPolicy at h
  split_ifs at h with notChild notPolicy
  · cases h
    exact .inl rfl
  · obtain ⟨read, -, same⟩ := Option.map_eq_some_iff.mp h
    cases same
    exact .inr ⟨not_not.mp notChild, rfl⟩

theorem attachToPolicy_eq (child : d.getBatteryType c = some .splitted)
    (policy : d.getBatteryType name = some .balSplitter) :
    d.attachToPolicy getStatusOf sp c name =
      (getStatusOf (d.getChildren name) c sp).map fun sp =>
        (true,
          { d with
            nameStorageMap := d.nameStorageMap.modify c fun child =>
              { child with kind := .splitted (some name) } }, sp) := by
  simp [attachToPolicy, child, policy]

theorem getBatteryType_attachToPolicy
    (h : d.attachToPolicy getStatusOf sp c name = some (result, d', sp')) :
    d'.getBatteryType = d.getBatteryType := by
  rcases attachToPolicy_cases h with rfl | ⟨child, rfl⟩
  · rfl
  · funext other
    unfold getBatteryType getBattery at child ⊢
    rw [OrderedMap.find?_modify]
    split_ifs with same
    · rw [same, child, Option.map_map]
      rw [Option.map_eq_some_iff] at child ⊢
      obtain ⟨b, hb, -⟩ := child
      exact ⟨b, hb, rfl⟩
    · rfl

theorem nameExists_eq_of_type (h : d'.getBatteryType = d.getBatteryType) :
    d'.nameExists = d.nameExists := by
  funext name
  rw [nameExists_eq_isSome_type, nameExists_eq_isSome_type, h]

theorem Sound.attachToPolicy (sound : d.Sound)
    (h : d.attachToPolicy getStatusOf sp c name = some (result, d', sp')) : d'.Sound := by
  have exists_eq := nameExists_eq_of_type (getBatteryType_attachToPolicy h)
  refine ⟨?_, fun p a edge => ?_⟩
  · rcases attachToPolicy_cases h with rfl | ⟨-, rfl⟩ <;> exact sound.inverse
  · rw [exists_eq]
    apply sound.stored p a
    rcases attachToPolicy_cases h with rfl | ⟨-, rfl⟩ <;> exact edge

end Attachment

/-! ### The loops of the factories -/

theorem Sound.addSources {srcNames : List String} (sound : d.Sound)
    (h : d.addSources name srcNames = some d') : d'.Sound := by
  induction srcNames generalizing d with
  | nil => exact Option.some.inj h ▸ sound
  | cons src rest ih =>
      simp only [BOSDirectory.addSources, Option.bind_eq_bind, Option.bind_eq_some_iff,
        Prod.exists] at h
      obtain ⟨added, d₁, edge, later⟩ := h
      exact ih (sound.addEdge edge) later

theorem Sound.addChildren {children : List (String × ℤ)} (sound : d.Sound) :
    (d.addChildren children).2.Sound := by
  induction children generalizing d with
  | nil => exact sound
  | cons child rest ih => exact ih sound.addBattery

theorem getBatteryType_addChildren (children : List (String × ℤ)) (other : String) :
    (d.addChildren children).2.getBatteryType other =
      if other ∈ children.map Prod.fst then some ((d.getBatteryType other).getD .splitted)
      else d.getBatteryType other := by
  induction children generalizing d with
  | nil => rfl
  | cons child rest ih =>
      rw [addChildren, ih, getBatteryType_addBattery]
      simp only [List.map_cons, List.mem_cons]
      by_cases first : other = child.1 <;> by_cases later : other ∈ rest.map Prod.fst <;>
        simp [first, later, BatteryKind.type]

theorem length_addChildren (children : List (String × ℤ)) :
    (d.addChildren children).1.length = children.length := by
  induction children generalizing d with
  | nil => rfl
  | cons child rest ih =>
      rw [addChildren, List.length_cons, List.length_cons, ih]

@[simp] theorem getChildren_addChildren (children : List (String × ℤ)) (p : String) :
    (d.addChildren children).2.getChildren p = d.getChildren p := by
  induction children generalizing d with
  | nil => rfl
  | cons child rest ih =>
      rw [addChildren, ih, getChildren_addBattery]

theorem getBattery_addChildren_of_not_mem (children : List (String × ℤ)) {other : String}
    (apart : other ∉ children.map Prod.fst) :
    (d.addChildren children).2.getBattery other = d.getBattery other := by
  induction children generalizing d with
  | nil => rfl
  | cons child rest ih =>
      rw [List.map_cons, List.mem_cons, not_or] at apart
      rw [addChildren, ih apart.2, getBattery_addBattery, if_neg apart.1]

theorem addChildren_eq_map_iff (children : List (String × ℤ)) :
    (d.addChildren children).1 = (children.map Prod.fst).map some ↔
      (children.map Prod.fst).Nodup ∧ ∀ cn ∈ children.map Prod.fst, ¬ d.nameExists cn := by
  induction children generalizing d with
  | nil => simp [addChildren]
  | cons child rest ih =>
      have first (b : StoredBattery) :
          (d.addBattery child.1 b).1 = some child.1 ↔ ¬ d.nameExists child.1 := by
        unfold addBattery
        split_ifs with taken <;> simp [taken]
      rw [addChildren]
      simp only [List.map_cons, List.cons.injEq, first, ih, nameExists_addBattery_iff, not_or,
        List.nodup_cons, List.forall_mem_cons]
      constructor
      · rintro ⟨free, nodup, others⟩
        exact ⟨⟨fun again => (others _ again).1 rfl, nodup⟩, free, fun cn h => (others cn h).2⟩
      · rintro ⟨⟨once, nodup⟩, free, others⟩
        exact ⟨free, nodup, fun cn h => ⟨fun same => once (same ▸ h), others cn h⟩⟩

section SecondLoop

variable {σ : Type} {getStatusOf : ℕ → List String → String → σ → Option σ} {sp : σ} {k : ℕ}

theorem attachChildren_cons {rest : List String} :
    attachChildren getStatusOf name k d sp (c :: rest) = some d' ↔
      ∃ added d₁ attached d₂ sp', d.addEdge name c = some (added, d₁) ∧
        d₁.attachToPolicy (getStatusOf k) sp c name = some (attached, d₂, sp') ∧
        attachChildren getStatusOf name (k + 1) d₂ sp' rest = some d' := by
  simp only [attachChildren, Option.bind_eq_bind, Option.bind_eq_some_iff, Prod.exists]
  constructor
  · rintro ⟨added, d₁, edge, attached, d₂, sp', attach, later⟩
    exact ⟨added, d₁, attached, d₂, sp', edge, attach, later⟩
  · rintro ⟨added, d₁, attached, d₂, sp', edge, attach, later⟩
    exact ⟨added, d₁, edge, attached, d₂, sp', attach, later⟩

theorem Sound.attachChildren {names : List String} (sound : d.Sound)
    (h : attachChildren getStatusOf name k d sp names = some d') : d'.Sound := by
  induction names generalizing k d sp with
  | nil => exact Option.some.inj h ▸ sound
  | cons child rest ih =>
      obtain ⟨added, d₁, attached, d₂, sp', edge, attach, later⟩ := attachChildren_cons.mp h
      exact ih ((sound.addEdge edge).attachToPolicy attach) later

theorem getBatteryType_addEdge (h : d.addEdge p c = some (result, d')) :
    d'.getBatteryType = d.getBatteryType := by
  funext other
  rw [getBatteryType, getBattery_addEdge h]
  rfl

theorem attachChildren_self {names : List String} (child : d.getBatteryType name = some .splitted)
    (self : name ∈ names) : attachChildren getStatusOf name k d sp names = none := by
  refine Option.eq_none_iff_forall_ne_some.mpr fun d' h => ?_
  induction names generalizing k d sp with
  | nil => cases self
  | cons first rest ih =>
      obtain ⟨added, d₁, attached, d₂, sp', edge, attach, later⟩ := attachChildren_cons.mp h
      rcases List.mem_cons.mp self with rfl | self
      · have stored : d.nameExists name := by rw [nameExists_eq_isSome_type, child]; rfl
        have virtual : d.getBatteryType name ≠ some .physical := by rw [child]; decide
        rw [addEdge_self stored virtual] at edge
        cases edge
      · refine ih ?_ self later
        rw [getBatteryType_attachToPolicy attach, getBatteryType_addEdge edge, child]

/-- What the second loop leaves where the policy is stored, and what it goes over are children. -/
structure Attached (d d' : BOSDirectory) (name : String) (names : List String) : Prop where
  kind : ∀ cn ∈ names, (d'.getBattery cn).map StoredBattery.kind = some (.splitted (some name))
  other : ∀ other ∉ names, d'.getBattery other = d.getBattery other
  children : ∀ p, d'.getChildren p =
    if p = name then d.getChildren name ++ names else d.getChildren p

theorem Attached.nil : Attached d d name [] where
  kind cn h := absurd h List.not_mem_nil
  other _ _ := rfl
  children p := by
    split_ifs with same
    · rw [same, List.append_nil]
    · rfl

theorem Attached.append {d₁ d₂ : BOSDirectory} {xs ys : List String} (first : Attached d d₁ name xs)
    (later : Attached d₁ d₂ name ys) : Attached d d₂ name (xs ++ ys) where
  kind cn h := by
    by_cases again : cn ∈ ys
    · exact later.kind cn again
    · rw [later.other cn again]
      exact first.kind cn ((List.mem_append.mp h).resolve_right again)
  other cn h := by
    rw [List.mem_append, not_or] at h
    rw [later.other cn h.2, first.other cn h.1]
  children p := by
    rw [later.children, first.children, first.children, if_pos rfl, List.append_assoc]
    split_ifs <;> rfl

theorem attachChild_of_splitted (σ : Type) (policy : d.getBatteryType name = some .balSplitter)
    (child : d.getBatteryType c = some .splitted) :
    ∃ d₁ d₂, d.addEdge name c = some (true, d₁) ∧
      (∀ (getStatusOf : List String → String → σ → Option σ) sp,
        d₁.attachToPolicy getStatusOf sp c name =
          (getStatusOf (d.getChildren name ++ [c]) c sp).map fun sp' => (true, d₂, sp')) ∧
      d₂.getBatteryType = d.getBatteryType ∧ Attached d d₂ name [c] := by
  have ne : name ≠ c := by
    rintro rfl
    rw [policy] at child
    cases child
  have edge := addEdge_of_ne (by rw [nameExists_eq_isSome_type, policy]; rfl)
    (by rw [nameExists_eq_isSome_type, child]; rfl) ne
  have types := getBatteryType_addEdge edge
  have there : ({ d with
      childrenMap := d.childrenMap.push name c
      parentMap := d.parentMap.push c name } : BOSDirectory).getChildren name =
        d.getChildren name ++ [c] :=
    (Adjacency.neighbours_push _ _ _ _).trans (if_pos rfl)
  have attach {σ : Type} (getStatusOf : List String → String → σ → Option σ) (sp : σ) :=
    @attachToPolicy_eq _ _ _ _ getStatusOf sp ((congrFun types c).trans child)
      ((congrFun types name).trans policy)
  rw [there] at attach
  refine ⟨_, _, edge, attach, ?_, ?_, ?_, ?_⟩
  · exact (getBatteryType_attachToPolicy (attach (fun _ _ => some) ())).trans types
  · intro cn h
    obtain rfl := List.mem_singleton.mp h
    obtain ⟨battery, stored, -⟩ := Option.map_eq_some_iff.mp child
    unfold getBattery at stored ⊢
    rw [OrderedMap.find?_modify, if_pos rfl, stored]
    rfl
  · intro other h
    exact (OrderedMap.find?_modify _ _ _ _).trans (if_neg (List.mem_singleton.not.mp h))
  · intro p
    exact Adjacency.neighbours_push _ _ _ _

/-- A status can be read for each child in turn, with those before it and itself attached. -/
def Attachable (getStatusOf : ℕ → List String → String → σ → Option σ) :
    ℕ → List String → σ → List String → Prop
  | _, _, _, [] => True
  | k, attached, sp, name :: rest => ∃ sp', getStatusOf k (attached ++ [name]) name sp = some sp' ∧
      Attachable getStatusOf (k + 1) (attached ++ [name]) sp' rest

theorem attachChildren_of_splitted (σ : Type) {names : List String}
    (policy : d.getBatteryType name = some .balSplitter)
    (splitted : ∀ cn ∈ names, d.getBatteryType cn = some .splitted) :
    ∃ last, Attached d last name names ∧
      ∀ (getStatusOf : ℕ → List String → String → σ → Option σ) k sp d',
        attachChildren getStatusOf name k d sp names = some d' ↔
          last = d' ∧ Attachable getStatusOf k (d.getChildren name) sp names := by
  induction names generalizing d with
  | nil => exact ⟨d, .nil, fun getStatusOf k sp d' => by simp [attachChildren, Attachable]⟩
  | cons first rest ih =>
      obtain ⟨d₁, d₂, edge, attach, types, joined⟩ :=
        attachChild_of_splitted σ policy (splitted first List.mem_cons_self)
      obtain ⟨last, done, later⟩ := ih ((congrFun types name).trans policy) fun cn h =>
        (congrFun types cn).trans (splitted cn (List.mem_cons_of_mem _ h))
      have children : d₂.getChildren name = d.getChildren name ++ [first] :=
        (joined.children name).trans (if_pos rfl)
      refine ⟨last, joined.append done, fun getStatusOf k sp d' => ?_⟩
      rw [attachChildren_cons, Attachable, ← children]
      constructor
      · rintro ⟨_, _, _, _, sp', edge', attach', rest⟩
        rw [edge] at edge'
        cases edge'
        rw [attach, ← children] at attach'
        obtain ⟨read, reads, same⟩ := Option.map_eq_some_iff.mp attach'
        cases same
        obtain ⟨same, others⟩ := (later _ _ _ _).mp rest
        exact ⟨same, sp', reads, others⟩
      · rintro ⟨same, sp', reads, others⟩
        refine ⟨true, d₁, true, d₂, sp', edge, ?_, (later _ _ _ _).mpr ⟨same, others⟩⟩
        rw [attach, ← children, reads]
        rfl

end SecondLoop

/-! ### Whole runs -/

def withBatteries (d : BOSDirectory) (args : SplitterArgs) : BOSDirectory :=
  ((d.addChildren (args.childNames.zip args.childMaxStalenessesMS)).2.addBattery args.name
    ⟨args.maxStalenessMS, .balSplitter args.policy⟩).2

variable {args : SplitterArgs}

theorem Sound.withBatteries (sound : d.Sound) : (d.withBatteries args).Sound :=
  sound.addChildren.addBattery

theorem makeSplitter_of_refused (refused : d.refusesSplitter args = true) :
    d.makeSplitter args = some ([], d) := if_pos refused

theorem names_of_accepted (accepted : ¬ d.refusesSplitter args = true) :
    d.nameExists args.name = false ∧ d.nameExists args.srcName = true ∧
      (args.childNames.zip args.childMaxStalenessesMS).map Prod.fst = args.childNames ∧
      (∀ cn ∈ args.childNames, d.nameExists cn = false) ∧ args.childNames ≠ [] := by
  simp only [refusesSplitter, Bool.or_eq_true, Bool.not_eq_true', not_or, Bool.not_eq_true,
    Bool.not_eq_false, Bool.and_eq_true, decide_eq_true_eq, List.any_eq_false] at accepted
  obtain ⟨⟨⟨⟨name, src⟩, scales, lengths⟩, fresh⟩, accepted⟩ := accepted
  refine ⟨name, src, List.map_fst_zip lengths.le, fresh, ?_⟩
  intro empty
  rw [empty, List.length_nil, eq_comm, List.length_eq_zero_iff] at scales
  rw [scales] at accepted
  exact absurd accepted (by decide +kernel)

theorem getBatteryType_addChildren_of_stored (children : List (String × ℤ))
    (stored : d.nameExists name) :
    (d.addChildren children).2.getBatteryType name = d.getBatteryType name := by
  rw [nameExists_eq_isSome_type] at stored
  obtain ⟨type, htype⟩ := Option.isSome_iff_exists.mp stored
  rw [getBatteryType_addChildren, htype, Option.getD_some, ite_self]

section Accepted

variable (accepted : ¬ d.refusesSplitter args = true)
include accepted

theorem makeSplitter_of_accepted :
    d.makeSplitter args =
      if d.getBatteryType args.srcName = some .balSplitter then none
      else args.readings.sourceStatus.bind fun sourceStatus =>
        ((d.withBatteries args).addEdge args.srcName args.name).bind fun edge =>
          (attachChildren (args.getStatusOf sourceStatus) args.name 0 edge.2
            (args.construct sourceStatus) args.childNames).map fun d' =>
              ((d.addChildren (args.childNames.zip args.childMaxStalenessesMS)).1, d') := by
  have type : (d.addChildren (args.childNames.zip args.childMaxStalenessesMS)).2.getBatteryType
      args.srcName = d.getBatteryType args.srcName :=
    getBatteryType_addChildren_of_stored _ (names_of_accepted accepted).2.1
  rw [makeSplitter, if_neg accepted]
  dsimp only
  rw [type]
  refine if_congr Iff.rfl rfl ?_
  exact bind_congr fun sourceStatus => bind_congr fun edge => Option.map_eq_bind.symm

end Accepted

theorem Sound.makeSplitter {children : List (Option String)}
    (sound : d.Sound) (h : d.makeSplitter args = some (children, d')) : d'.Sound := by
  by_cases refused : d.refusesSplitter args = true
  · rw [makeSplitter_of_refused refused] at h
    cases h
    exact sound
  · rw [makeSplitter_of_accepted refused] at h
    obtain ⟨-, h⟩ := Option.ite_none_left_eq_some.mp h
    obtain ⟨sourceStatus, -, h⟩ := Option.bind_eq_some_iff.mp h
    obtain ⟨edge, hedge, attached⟩ := Option.bind_eq_some_iff.mp h
    obtain ⟨last, hlast, same⟩ := Option.map_eq_some_iff.mp attached
    cases same
    exact (sound.withBatteries.addEdge hedge).attachChildren hlast

theorem Sound.makePhysical {maxStalenessMS : ℤ} (sound : d.Sound) :
    (d.makePhysical name maxStalenessMS).2.Sound := by
  unfold BOSDirectory.makePhysical
  split_ifs
  · exact sound
  · exact sound.addBattery

theorem Sound.makeAggregator {srcNames : List String} {maxStalenessMS : ℤ} {agg : Option String}
    (sound : d.Sound) (h : d.makeAggregator name srcNames maxStalenessMS = some (agg, d')) :
    d'.Sound := by
  unfold BOSDirectory.makeAggregator at h
  split_ifs at h
  · cases h
    exact sound
  · simp only [Option.bind_eq_bind, Option.bind_eq_some_iff] at h
    obtain ⟨d₁, sources, last⟩ := h
    cases last
    exact sound.addBattery.addSources sources

theorem Sound.step {call : Call} (sound : d.Sound) (h : d.step call = some d') : d'.Sound := by
  cases call with
  | makeNull name maxStalenessMS => exact Option.some.inj h ▸ sound.makePhysical
  | makePseudo name maxStalenessMS => exact Option.some.inj h ▸ sound.makePhysical
  | makeJBDBMS name maxStalenessMS => exact Option.some.inj h ▸ sound.makePhysical
  | makeNetworkedBattery name maxStalenessMS => exact Option.some.inj h ▸ sound.makePhysical
  | makeDynamic name maxStalenessMS initialized =>
      obtain rfl := Option.some.inj h
      cases initialized
      · exact sound
      · exact sound.addBattery
  | makeAggregator name srcNames maxStalenessMS =>
      obtain ⟨made, hmade, rfl⟩ := Option.map_eq_some_iff.mp h
      exact sound.makeAggregator hmade
  | makeSplitter args =>
      obtain ⟨made, hmade, rfl⟩ := Option.map_eq_some_iff.mp h
      exact sound.makeSplitter hmade
  | removeBattery name =>
      obtain ⟨removed, hremoved, rfl⟩ := Option.map_eq_some_iff.mp h
      unfold removeBattery at hremoved
      split_ifs at hremoved
      cases hremoved
      exact sound

theorem sound_of_exec {calls : List Call} (run : StepRun.exec step empty calls = some d) :
    d.Sound :=
  StepRun.exec_kept sound_empty (fun _ _ _ sound h => sound.step h) run

structure SplitterMade (d d' : BOSDirectory) (args : SplitterArgs) : Prop where
  free : d.nameExists args.name = false
  childFree : ∀ cn ∈ args.childNames, d.nameExists cn = false
  source : d.nameExists args.srcName = true
  apart : args.name ∉ args.childNames
  policy : d'.getBattery args.name = some ⟨args.maxStalenessMS, .balSplitter args.policy⟩
  attached : ∀ cn ∈ args.childNames,
    (d'.getBattery cn).map StoredBattery.kind = some (.splitted (some args.name))
  other : ∀ other, other ≠ args.name → other ∉ args.childNames →
    d'.getBattery other = d.getBattery other
  children : ∀ p, d'.getChildren p =
    if p = args.name then args.childNames
    else if p = args.srcName then d.getChildren args.srcName ++ [args.name]
    else d.getChildren p

section Accepted

variable (accepted : ¬ d.refusesSplitter args = true)
include accepted

theorem getBatteryType_child {cn : String} (child : cn ∈ args.childNames) :
    (d.withBatteries args).getBatteryType cn = some .splitted := by
  obtain ⟨-, -, names, fresh, -⟩ := names_of_accepted accepted
  have free := fresh cn child
  rw [nameExists_eq_isSome_type, Option.isSome_eq_false_iff, Option.isNone_iff_eq_none] at free
  have made : (d.addChildren (args.childNames.zip args.childMaxStalenessesMS)).2.getBatteryType cn =
      some .splitted := by
    rw [getBatteryType_addChildren, names, if_pos child, free, Option.getD_none]
  rw [withBatteries, getBatteryType_addBattery]
  split_ifs with same
  · rw [← same, made, Option.getD_some]
  · exact made

theorem getBattery_policy (apart : args.name ∉ args.childNames) :
    (d.withBatteries args).getBattery args.name =
      some ⟨args.maxStalenessMS, .balSplitter args.policy⟩ := by
  obtain ⟨free, -, names, -, -⟩ := names_of_accepted accepted
  have absent : (d.addChildren
      (args.childNames.zip args.childMaxStalenessesMS)).2.getBatteryType args.name = none := by
    rw [nameExists_eq_isSome_type, Option.isSome_eq_false_iff, Option.isNone_iff_eq_none] at free
    rw [getBatteryType_addChildren, names, if_neg apart, free]
  rw [withBatteries, getBattery_addBattery, if_pos rfl, Option.map_eq_none_iff.mp absent,
    Option.getD_none]

theorem addEdge_source : ∃ d₁,
    (d.withBatteries args).addEdge args.srcName args.name = some (true, d₁) ∧
      d₁.getBattery = (d.withBatteries args).getBattery ∧
      ∀ p, d₁.getChildren p =
        if p = args.srcName then d.getChildren args.srcName ++ [args.name] else d.getChildren p := by
  obtain ⟨free, source, -, -, -⟩ := names_of_accepted accepted
  have children (p : String) : (d.withBatteries args).getChildren p = d.getChildren p := by
    rw [withBatteries, getChildren_addBattery, getChildren_addChildren]
  have stored : (d.addChildren (args.childNames.zip args.childMaxStalenessesMS)).2.nameExists
      args.srcName := by
    rw [nameExists_eq_isSome_type, getBatteryType_addChildren_of_stored _ source,
      ← nameExists_eq_isSome_type, source]
  have ne : args.srcName ≠ args.name := by
    intro same
    rw [same, free] at source
    cases source
  have edge := addEdge_of_ne (d := d.withBatteries args) (nameExists_addBattery_iff.mpr (.inr stored))
    (nameExists_addBattery_iff.mpr (.inl rfl)) ne
  refine ⟨_, edge, getBattery_addEdge edge, fun p => ?_⟩
  rw [← children, ← children]
  exact Adjacency.neighbours_push _ _ _ _

end Accepted

/-- A child with the name of the policy is stored in its place, and the call does not return. -/
theorem apart_of_accepted {children : List (Option String)}
    (accepted : ¬ d.refusesSplitter args = true)
    (run : d.makeSplitter args = some (children, d')) : args.name ∉ args.childNames := by
  intro child
  rw [makeSplitter_of_accepted accepted] at run
  obtain ⟨-, run⟩ := Option.ite_none_left_eq_some.mp run
  obtain ⟨sourceStatus, -, run⟩ := Option.bind_eq_some_iff.mp run
  obtain ⟨⟨added, d₁⟩, edge, run⟩ := Option.bind_eq_some_iff.mp run
  obtain ⟨last, attached, -⟩ := Option.map_eq_some_iff.mp run
  have type := getBatteryType_child accepted child
  rw [← getBatteryType_addEdge edge] at type
  rw [attachChildren_self type child] at attached
  cases attached

/-- The loops of the refreshes stay in range while the children are attached, each from what the one
before has left of the policy. -/
def AttachInRange (args : SplitterArgs) (sourceStatus : BatteryStatus) :
    ℕ → List String → BALSplitter (args.lastChild + 1) → List String → Prop
  | _, _, _, [] => True
  | k, attached, sp, name :: rest =>
    sp.StatusInRange (args.terms sourceStatus) (attached ++ [name]) (args.readings.attaching k) name ∧
      ∀ sp', args.getStatusOf sourceStatus k (attached ++ [name]) name sp = some sp' →
        AttachInRange args sourceStatus (k + 1) (attached ++ [name]) sp' rest

theorem attachable_iff {sourceStatus : BatteryStatus} {k : ℕ} {attached names : List String}
    {sp : BALSplitter (args.lastChild + 1)} :
    Attachable (args.getStatusOf sourceStatus) k attached sp names ↔
      AttachInRange args sourceStatus k attached sp names := by
  induction names generalizing k attached sp with
  | nil => exact Iff.rfl
  | cons name rest ih =>
      have read := sp.isSome_getStatusOf_iff (args.terms sourceStatus) (attached ++ [name])
        (args.readings.attaching k) name
      rw [Attachable, AttachInRange, ← read]
      constructor
      · rintro ⟨sp', reads, later⟩
        refine ⟨Option.isSome_of_eq_some reads, fun sp'' reads' => ?_⟩
        obtain rfl := Option.some.inj (reads.symm.trans reads')
        exact ih.mp later
      · rintro ⟨reads, later⟩
        obtain ⟨sp', reads⟩ := Option.isSome_iff_exists.mp reads
        exact ⟨sp', reads, ih.mpr (later sp' reads)⟩

/-- The source is no policy and answers to the constructor of the new one, and the refreshes while
the children are attached stay in range. -/
def Readable (d : BOSDirectory) (args : SplitterArgs) : Prop :=
  d.getBatteryType args.srcName ≠ some .balSplitter ∧
    ∃ sourceStatus, args.readings.sourceStatus = some sourceStatus ∧
      AttachInRange args sourceStatus 0 [] (args.construct sourceStatus) args.childNames

theorem makeSplitter_of_apart (sound : d.Sound) (accepted : ¬ d.refusesSplitter args = true)
    (apart : args.name ∉ args.childNames) :
    ∃ last, SplitterMade d last args ∧
      ∀ children d', d.makeSplitter args = some (children, d') ↔ d.Readable args ∧
        (d.addChildren (args.childNames.zip args.childMaxStalenessesMS)).1 = children ∧
          last = d' := by
  obtain ⟨free, source, names, fresh, -⟩ := names_of_accepted accepted
  obtain ⟨d₁, edge, battery, edges⟩ := addEdge_source accepted
  have policy := getBattery_policy accepted apart
  have types : d₁.getBatteryType = (d.withBatteries args).getBatteryType :=
    getBatteryType_addEdge edge
  have policyType : d₁.getBatteryType args.name = some .balSplitter := by
    rw [types, getBatteryType, policy]
    rfl
  have splitted (cn : String) (child : cn ∈ args.childNames) :
      d₁.getBatteryType cn = some .splitted := by
    rw [types, getBatteryType_child accepted child]
  have ne : args.name ≠ args.srcName := by
    intro same
    rw [same, source] at free
    cases free
  -- the policy is new, so that it has no children yet
  have none : d.getChildren args.name = [] :=
    List.eq_nil_iff_forall_not_mem.mpr fun c edge => (sound.fresh edge free).1 rfl
  have childless : d₁.getChildren args.name = [] := by rw [edges, if_neg ne, none]
  obtain ⟨last, done, attach⟩ :=
    attachChildren_of_splitted (BALSplitter (args.lastChild + 1)) policyType splitted
  refine ⟨last, ⟨free, fresh, source, apart, ?_, done.kind, fun other notPolicy notChild => ?_,
    fun p => ?_⟩, fun children d' => ?_⟩
  · rw [done.other args.name apart, battery, policy]
  · rw [done.other other notChild, battery, withBatteries, getBattery_addBattery,
      if_neg notPolicy, getBattery_addChildren_of_not_mem _ (by rwa [names])]
  · rw [done.children, childless, edges, List.nil_append]
  · rw [makeSplitter_of_accepted accepted, Readable, edge, Option.ite_none_left_eq_some, and_assoc]
    refine and_congr_right fun _ => ?_
    rw [Option.bind_eq_some_iff]
    constructor
    · rintro ⟨sourceStatus, answered, made⟩
      obtain ⟨end', attached, same⟩ := Option.map_eq_some_iff.mp made
      obtain ⟨rfl, attachable⟩ := (attach _ _ _ _).mp attached
      rw [childless] at attachable
      cases same
      exact ⟨⟨sourceStatus, answered, attachable_iff.mp attachable⟩, rfl, rfl⟩
    · rintro ⟨⟨sourceStatus, answered, inRange⟩, rfl, rfl⟩
      refine ⟨sourceStatus, answered, Option.map_eq_some_iff.mpr ⟨last, ?_, rfl⟩⟩
      refine (attach _ _ _ _).mpr ⟨rfl, ?_⟩
      rw [childless]
      exact attachable_iff.mpr inRange

/-! ### Complete partitions -/

/-- A non-null battery for every requested child, each of its own name and attached to the policy,
and the edges from the source to the policy and from there to the children once each. -/
structure CompletePartition (d : BOSDirectory) (args : SplitterArgs)
    (children : List (Option String)) : Prop where
  children : children = args.childNames.map some
  distinct : args.childNames.Nodup
  policy : d.getBattery args.name = some ⟨args.maxStalenessMS, .balSplitter args.policy⟩
  attached : ∀ cn ∈ args.childNames,
    (d.getBattery cn).map StoredBattery.kind = some (.splitted (some args.name))
  source_edge : (d.getChildren args.srcName).count args.name = 1 ∧
    (d.getParents args.name).count args.srcName = 1
  child_edges : ∀ cn ∈ args.childNames,
    (d.getChildren args.name).count cn = 1 ∧ (d.getParents cn).count args.name = 1

/-- `make_splitter` returns, with nothing done or with a complete partition. -/
def CompleteOrNothing (d : BOSDirectory) (args : SplitterArgs) : Prop :=
  ∃ children d', d.makeSplitter args = some (children, d') ∧
    (children = [] ∧ d' = d ∨ CompletePartition d' args children)

theorem SplitterMade.completePartition (made : SplitterMade d d' args) (sound : d.Sound)
    (sound' : d'.Sound) (nodup : args.childNames.Nodup) :
    CompletePartition d' args (args.childNames.map some) := by
  have ne : args.srcName ≠ args.name := by
    intro same
    have free := made.free
    rw [← same, made.source] at free
    cases free
  have noEdge : (d.getChildren args.srcName).count args.name = 0 :=
    sound.count_eq_zero fun h => by simp [made.free] at h
  have sourceEdge : (d'.getChildren args.srcName).count args.name = 1 := by
    rw [made.children, if_neg ne, if_pos rfl, List.count_append, List.count_singleton_self, noEdge]
  have childEdge (cn : String) (child : cn ∈ args.childNames) :
      (d'.getChildren args.name).count cn = 1 := by
    rw [made.children, if_pos rfl, List.count_eq_one_of_mem nodup child]
  refine ⟨rfl, nodup, made.policy, made.attached, ⟨sourceEdge, ?_⟩, fun cn child =>
    ⟨childEdge cn child, ?_⟩⟩
  · rw [sound'.count_parents, sourceEdge]
  · rw [sound'.count_parents, childEdge cn child]

theorem SplitterMade.ids (made : SplitterMade d d' args) (nodup : args.childNames.Nodup)
    {sp : BALSplitter args.childNames.length} (named : sp.childNames = args.childNames.get) :
    (d'.getChildren args.name).map sp.nameLookup = (BALSplitter.inOrder _).ids.map some := by
  have distinct : sp.childNames.Injective := by
    rw [named]
    exact List.nodup_iff_injective_get.mp nodup
  calc (d'.getChildren args.name).map sp.nameLookup
      = ((List.finRange _).map args.childNames.get).map sp.nameLookup := by
        rw [made.children, if_pos rfl, List.map_get_finRange]
    _ = (List.finRange _).map some := by
        rw [List.map_map]
        refine List.map_congr_left fun i _ => ?_
        rw [Function.comp_apply, ← named, BALSplitter.nameLookup_of_injective distinct]

/-- Past its tests, `make_splitter` leaves a complete partition exactly when no two of the new
batteries are to have the same name and the statuses can be read. -/
theorem makeSplitter_completeOrNothing_iff {calls : List Call}
    (run : StepRun.exec step empty calls = some d) (args : SplitterArgs) :
    CompleteOrNothing d args ↔ d.refusesSplitter args = true ∨
      (args.childNames.Nodup ∧ args.name ∉ args.childNames ∧ d.Readable args) := by
  have sound := sound_of_exec run
  by_cases accepted : d.refusesSplitter args = true
  · exact iff_of_true ⟨[], d, makeSplitter_of_refused accepted, .inl ⟨rfl, rfl⟩⟩ (.inl accepted)
  · obtain ⟨-, -, names, fresh, nonempty⟩ := names_of_accepted accepted
    have stored := addChildren_eq_map_iff (d := d)
      (args.childNames.zip args.childMaxStalenessesMS)
    rw [names] at stored
    rw [or_iff_right accepted]
    constructor
    · rintro ⟨children, d', result, outcome⟩
      have apart := apart_of_accepted accepted result
      obtain ⟨last, -, returns⟩ := makeSplitter_of_apart sound accepted apart
      obtain ⟨readable, rfl, rfl⟩ := (returns _ _).mp result
      rcases outcome with nothing | complete
      · have length := length_addChildren (d := d)
          (args.childNames.zip args.childMaxStalenessesMS)
        rw [nothing.1, ← List.length_map Prod.fst, names] at length
        exact absurd (List.length_eq_zero_iff.mp length.symm) nonempty
      · exact ⟨(stored.mp complete.children).1, apart, readable⟩
    · rintro ⟨nodup, apart, readable⟩
      obtain ⟨last, made, returns⟩ := makeSplitter_of_apart sound accepted apart
      have children := stored.mpr ⟨nodup, fun cn child => Bool.eq_false_iff.mp (fresh cn child)⟩
      have result := (returns _ _).mpr ⟨readable, children, rfl⟩
      exact ⟨_, last, result, .inr (made.completePartition sound (sound.makeSplitter result) nodup)⟩

def sourceOnly : BOSDirectory := (empty.makeNull "source" 1000).2

def halfFull : SplitterReadings where
  sourceStatus := some ⟨3000, 0, 1000, 2000, 200, 200, 0⟩
  constructedAt _ := 0
  attaching _ := ⟨milliseconds 5000, some ⟨3000, 0, 1000, 2000, 200, 200, 0⟩, milliseconds 5000⟩

def halves (first second : String) : SplitterArgs where
  name := "policy"
  srcName := "source"
  childNames := [first, second]
  childScales := [.ofProportion (1 / 2), .ofProportion (1 / 2)]
  childMaxStalenessesMS := [1000, 1000]
  policyType := 0
  maxStalenessMS := 1000
  readings := halfFull

theorem makeSplitter_completeOrNothing_halves : CompleteOrNothing sourceOnly (halves "a" "b") := by
  have answers {status : BatteryStatus} {sp : BALSplitter 2} {names : List String} {now : ℤ} :
      sp.RefreshInRange ((halves "a" "b").terms status) names (halfFull.attaching 0).sourceStatus
        now :=
    ⟨_, rfl, ⟨fun h => (by cases h), fun h => (by cases h)⟩⟩
  exact (@makeSplitter_completeOrNothing_iff sourceOnly [.makeNull "source" 1000] rfl
    (halves "a" "b")).mpr (.inr ⟨by decide, by decide, by decide +kernel, _, rfl,
      fun _ _ _ _ => answers, fun _ _ => ⟨fun _ _ _ _ => answers, fun _ _ => trivial⟩⟩)

/-- The second child of a name is not stored, and a null pointer is returned for it. -/
theorem repeated_child_not_completeOrNothing :
    StepRun.exec step empty [.makeNull "source" 1000] = some sourceOnly ∧
      ¬ CompleteOrNothing sourceOnly (halves "a" "a") := by
  refine ⟨rfl, ?_⟩
  rintro ⟨children, d', result, outcome⟩
  have returned : (sourceOnly.makeSplitter (halves "a" "a")).map Prod.fst =
      some [some "a", none] := by decide +kernel
  rw [result] at returned
  obtain rfl : children = [some "a", none] := Option.some.inj returned
  rcases outcome with nothing | complete
  · cases nothing.1
  · exact absurd complete.children (by decide)

/-- By reservation, a source that is measured at a little below zero is not divided at all. -/
example : sourceOnly.makeSplitter { halves "a" "b" with
    policyType := 2
    readings := { halfFull with attaching := fun _ =>
      ⟨milliseconds 5000, some ⟨3000, -1, 1000, 2000, 200, 200, 0⟩, milliseconds 5000⟩ } } =
    none := by
  refine Option.isNone_iff_eq_none.mp ?_
  decide +kernel

end BOSDirectory

end BatteryOS.V2
