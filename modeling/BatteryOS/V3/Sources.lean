import BatteryOS.V3.AllOrNothing
import BatteryOS.V3.Delivery

/-! What a registered battery stands on is registered as well, so a request that it passes on
under its own name meets no other battery of that name and is never refused: whether a battery
takes a request is decided by its own checks. -/

namespace BatteryOS.V3

open World

section Forwarded

variable {w w' : World} {i fuel sequenceNumber : ℕ} {now startTime endTime : ℤ} {name : String}
  {currentMA : ℚ}

theorem World.SameNodes.layered (h : SameNodes w w') (layered : w.Layered) : w'.Layered :=
  fun i kind hkind => layered i kind ((h.kind i).symm.trans hkind)

theorem World.SameNodes.below (h : SameNodes w w') {j : ℕ} (below : w'.Below i j) : w.Below i j :=
  Relation.ReflTransGen.mono (fun j _ edge => by rwa [h.kind] at edge) i j below

theorem World.SameNodes.insertEvents (h : SameNodes w w') (share : ℚ) :
    SameNodes w (w'.insertEvents i name share startTime endTime sequenceNumber) :=
  h.trans (sameNodes_setBattery w' i fun _ => rfl)

theorem dispatch_forwarded {get : World → ℕ → Option (BatteryStatus × World)}
    {send : World → ℕ → ℚ → Option (Bool × World)} {parents : List ℕ} (capacityMAh currentMA : ℚ)
    (gets : ∀ w', SameNodes w w' → ∀ s ∈ parents,
      ∃ status w'', get w' s = some (status, w'') ∧ SameNodes w' w'')
    (sends : ∀ w', SameNodes w w' → ∀ s ∈ parents, ∀ share,
      ∃ w'', send w' s share = some (true, w'') ∧ SameNodes w' w'') :
    ∃ w', dispatch get send capacityMAh currentMA w parents = some (true, w') ∧ SameNodes w w' := by
  induction parents generalizing w with
  | nil => exact ⟨w, rfl, .refl w⟩
  | cons s rest ih =>
      obtain ⟨status, w₁, got, same₁⟩ := gets w (.refl w) s List.mem_cons_self
      obtain ⟨w₂, sent, same₂⟩ := sends w₁ same₁ s List.mem_cons_self
        (targetCurrent capacityMAh currentMA status)
      have same := same₁.trans same₂
      obtain ⟨w₃, others, same₃⟩ := ih
        (fun w' h s' hs' => gets w' (same.trans h) s' (List.mem_cons_of_mem s hs'))
        (fun w' h s' hs' => sends w' (same.trans h) s' (List.mem_cons_of_mem s hs'))
      refine ⟨w₃, ?_, same.trans same₃⟩
      simp only [dispatch, got, sent, Option.bind_eq_bind, Option.bind_some, if_true]
      exact others

/-- The checks that a battery makes on a request under its own name: an aggregate on its status
when it is fresh, a partition manager none. -/
def World.refuses (w : World) (now : ℤ) (fuel i : ℕ) (currentMA : ℚ) (startTime : ℤ) : Bool :=
  match w.kind? i with
  | some .physical | some (.partition _) => (w.battery i).refuses now currentMA startTime
  | some (.aggregate _) => (getStatus now fuel w i).any fun result =>
      { w.battery i with status := result.1 }.refuses now currentMA startTime
  | some (.partitionManager _ _ _ _) | none => false

def Sends (now startTime endTime : ℤ) (name : String) (sequenceNumber fuel : ℕ) (w : World)
    (i : ℕ) : Prop :=
  ∀ kind, w.kind? i = some kind → ∀ w', SameNodes w w' → ∀ s ∈ kind.sources, ∀ share,
    ∃ w'', scheduleSetCurrent now startTime endTime name sequenceNumber fuel w' s share =
      some (true, w'') ∧ SameNodes w' w''

theorem Sends.scheduleSetCurrent (h : Sends now startTime endTime name sequenceNumber fuel w i)
    (layered : w.Layered) (hi : i < fuel + 1) (hw : i < w.length) (currentMA : ℚ) :
    ∃ w', scheduleSetCurrent now startTime endTime name sequenceNumber (fuel + 1) w i currentMA =
      some (!(name = (w.battery i).batteryName && w.refuses now (fuel + 1) i currentMA startTime),
        w') ∧ SameNodes w w' := by
  obtain ⟨kind, hkind⟩ := Option.isSome_iff_exists.mp (isSome_kind?.mpr hw)
  have sends := h kind hkind
  have checked {P : Prop} [Decidable P] {b : Bool} :
      (decide P && b) = decide (P ∧ b = true) := by simp
  cases kind with
  | physical =>
      rw [scheduleSetCurrent_physical hkind]
      simp only [World.refuses, hkind, checked]
      split_ifs with refused
      · exact ⟨w, by rw [decide_eq_true refused]; rfl, .refl w⟩
      · exact ⟨_, by rw [decide_eq_false refused]; rfl, (SameNodes.refl w).insertEvents currentMA⟩
  | aggregate parents =>
      obtain ⟨status, w₁, got, refreshed, -⟩ := getStatus_spec now layered hi hw
      have same := refreshed.sameNodes
      rw [scheduleSetCurrent_aggregate hkind, got, Option.bind_some]
      simp only [World.refuses, hkind, got, Option.any_some, checked]
      split_ifs with refused
      · exact ⟨w₁, by rw [decide_eq_true refused]; rfl, same⟩
      · have gets : ∀ w', SameNodes w₁ w' → ∀ s ∈ parents, ∃ status w'',
            getStatus now fuel w' s = some (status, w'') ∧ SameNodes w' w'' := by
          intro w' h s hs
          have before := layered i _ hkind s hs
          have length := length_of_kind (same.trans h).kind
          have lower : s < fuel := by omega
          obtain ⟨status, w'', got, refreshed, -⟩ :=
            getStatus_spec now ((same.trans h).layered layered) lower (by omega)
          exact ⟨status, w'', got, refreshed.sameNodes⟩
        obtain ⟨w₂, dispatched, same'⟩ := dispatch_forwarded status.capacityMAh currentMA gets
          fun w' h s hs share => sends w' (same.trans h) s hs share
        exact ⟨w₂, by rw [dispatched, decide_eq_false refused]; rfl, same.trans same'⟩
  | partition source =>
      obtain ⟨w', sent, same⟩ := sends w (.refl w) source (List.mem_singleton_self _) currentMA
      rw [scheduleSetCurrent_partition hkind, sent]
      simp only [World.refuses, hkind, checked]
      split_ifs with refused
      · exact ⟨w, by rw [decide_eq_true refused]; rfl, .refl w⟩
      · exact ⟨_, by rw [decide_eq_false refused]; rfl, same.insertEvents currentMA⟩
  | partitionManager policyType source children childProportions =>
      obtain ⟨w', sent, same⟩ := sends w (.refl w) source (List.mem_singleton_self _) currentMA
      rw [scheduleSetCurrent_partitionManager hkind, sent]
      simp only [World.refuses, hkind, Bool.and_false, Bool.not_false]
      exact ⟨_, rfl, same.insertEvents currentMA⟩

theorem scheduleSetCurrent_forwarded (layered : w.Layered) (hi : i < fuel) (hw : i < w.length)
    (other : ∀ j, w.Below i j → (w.battery j).batteryName ≠ name) :
    ∃ w', scheduleSetCurrent now startTime endTime name sequenceNumber fuel w i currentMA =
      some (true, w') ∧ SameNodes w w' := by
  induction fuel generalizing w i currentMA with
  | zero => exact absurd hi (Nat.not_lt_zero i)
  | succ fuel ih =>
      have sends : Sends now startTime endTime name sequenceNumber fuel w i := by
        intro kind hkind w' same s hs share
        have before := layered i kind hkind s hs
        refine ih (same.layered layered) (by omega) ?_ fun j below => ?_
        · rw [length_of_kind same.kind]
          omega
        · rw [same.name]
          exact other j (.head ⟨kind, hkind, hs⟩ (same.below below))
      have own : ¬ name = (w.battery i).batteryName := fun same => other i .refl same.symm
      have sent := sends.scheduleSetCurrent layered hi hw currentMA
      rwa [decide_eq_false own] at sent

theorem World.Layered.below_le (layered : w.Layered) {j : ℕ} (below : w.Below i j) : j ≤ i := by
  induction below with
  | refl => exact le_rfl
  | tail _ edge ih =>
      obtain ⟨kind, hkind, hs⟩ := edge
      exact (layered _ kind hkind _ hs).le.trans ih

/-- Whether a request under the battery's own name is accepted depends on its own checks alone. -/
theorem scheduleSetCurrent_own (layered : w.Layered) (hi : i < fuel) (hw : i < w.length)
    (other : ∀ j, w.Below i j → j ≠ i → (w.battery j).batteryName ≠ (w.battery i).batteryName) :
    ∃ w', scheduleSetCurrent now startTime endTime (w.battery i).batteryName sequenceNumber fuel w i
      currentMA = some (!w.refuses now fuel i currentMA startTime, w') := by
  obtain ⟨fuel, rfl⟩ := Nat.exists_eq_add_of_lt (Nat.zero_lt_of_lt hi)
  rw [Nat.zero_add] at hi ⊢
  have sends : Sends now startTime endTime (w.battery i).batteryName sequenceNumber fuel w i := by
    intro kind hkind w' same s hs share
    have before := layered i kind hkind s hs
    refine scheduleSetCurrent_forwarded (same.layered layered) (by omega) ?_ fun j below => ?_
    · rw [length_of_kind same.kind]
      omega
    · have lower := layered.below_le (same.below below)
      rw [same.name]
      exact other j (.head ⟨kind, hkind, hs⟩ (same.below below)) (by omega)
  obtain ⟨w', sent, -⟩ := sends.scheduleSetCurrent layered hi hw currentMA
  exact ⟨w', by rw [sent, decide_eq_true rfl, Bool.true_and]⟩

end Forwarded

namespace BatteryDirectoryManager

variable {m m' : BatteryDirectoryManager} {name : String} {calls : List Call} {i : ℕ}

/-- What a registered battery stands on is registered, as its parents in the directory. -/
def Grounded (m : BatteryDirectoryManager) : Prop :=
  ∀ name i kind, m.getBattery name = some i → m.world.kind? i = some kind → ∀ s ∈ kind.sources,
    ∃ p ∈ m.directory.parents name, m.getBattery p = some s

theorem grounded_empty : empty.Grounded := fun _ _ _ stored => by cases stored

theorem Grounded.extend (h : m.Grounded) (ext : Extends m m') (sound : m.Sound)
    (new : ∀ name i kind, m'.getBattery name = some i → m.getBattery name = none →
      m'.world.kind? i = some kind → ∀ s ∈ kind.sources,
        ∃ p ∈ m'.directory.parents name, m'.getBattery p = some s) : m'.Grounded := by
  intro name i kind stored hkind s hs
  cases before : m.getBattery name with
  | none => exact new name i kind stored before hkind s hs
  | some j =>
      obtain rfl := Option.some.inj (stored.symm.trans (ext.battery name j before))
      rw [ext.kind_eq sound before] at hkind
      obtain ⟨p, parent, registered⟩ := h name i kind before hkind s hs
      exact ⟨p, ext.parents name i before ▸ parent, ext.battery p s registered⟩

theorem Grounded.idles (h : m.Grounded) (sound : m.Sound) (idles : Idles m m') : m'.Grounded := by
  refine h.extend idles.extends sound fun name i _ stored none => ?_
  rw [getBattery, idles.directory] at stored
  rw [getBattery, stored] at none
  cases none

theorem createAggregateBattery_parents {now : ℤ} {parentNames : List String} {maxStaleness : ℤ}
    {refreshMode : RefreshMode} {parents : List ℕ}
    (kind : (m.createAggregateBattery now name parentNames maxStaleness refreshMode).2.world.kind?
      m.world.length = some (.aggregate parents)) {s : ℕ} (hs : s ∈ parents) :
    ∃ p ∈ parentNames, m.getBattery p = some s := by
  have none : m.world.kind? m.world.length = none := by simp [World.kind?]
  have new (node : Node) : World.kind? (m.world ++ [node]) m.world.length = some node.kind := by
    simp [World.kind?]
  have found {given : List ℕ} (mapped : parentNames.mapM m.sourceBattery = some given)
      (hs : s ∈ given) : ∃ p ∈ parentNames, m.getBattery p = some s := by
    have given : some s ∈ parentNames.map m.sourceBattery :=
      mapM_eq_some.mp mapped ▸ List.mem_map_of_mem hs
    obtain ⟨p, hp, source⟩ := List.mem_map.mp given
    exact ⟨p, hp, (sourceBattery_eq_some source).1⟩
  unfold createAggregateBattery at kind
  split at kind
  · rw [none] at kind
    cases kind
  · rw [none] at kind
    cases kind
  · next given _ mapped =>
      refine found mapped ?_
      dsimp only at kind
      split at kind <;>
      · rw [new] at kind
        cases kind
        exact hs

theorem Grounded.physical (h : m.Grounded) (sound : m.Sound) (made : BatteryMade m m' name)
    (kind : m'.world.kind? m.world.length = some .physical)
    (children : m'.directory.children = m.directory.children)
    (parents : m'.directory.parents = m.directory.parents) : m'.Grounded := by
  refine h.extend (made.extends sound children parents) sound
    fun n i kind' stored none hkind s hs => ?_
  rcases (made.battery n i).mp stored with before | ⟨rfl, rfl⟩
  · rw [none] at before
    cases before
  · rw [kind] at hkind
    cases hkind
    cases hs

theorem Grounded.aggregate (h : m.Grounded) (sound : m.Sound) {parentNames : List String}
    (made : AggregateMade m m' name parentNames)
    (pointed : ∀ parents, m'.world.kind? m.world.length = some (.aggregate parents) →
      ∀ s ∈ parents, ∃ p ∈ parentNames, m.getBattery p = some s) : m'.Grounded := by
  refine h.extend made.extends sound fun n i kind' stored none hkind s hs => ?_
  obtain ⟨parents, kind⟩ := made.kind
  rcases (made.battery n i).mp stored with before | ⟨rfl, rfl⟩
  · rw [none] at before
    cases before
  · rw [kind] at hkind
    cases hkind
    obtain ⟨p, hp, registered⟩ := pointed parents kind s hs
    exact ⟨p, by rwa [made.parents, if_pos rfl], (made.battery p s).mpr (.inl registered)⟩

theorem Grounded.partitioned (h : m.Grounded) (sound : m.Sound) {args : PartitionArgs}
    {kept : List (String × ℕ)} (made : PartitionMade m m' args kept) : m'.Grounded := by
  refine h.extend (made.extends sound) sound fun n i kind' stored none hkind s hs => ?_
  obtain ⟨source, registered, -, kind⟩ := made.source
  rcases (made.battery n i).mp stored with before | new
  · rw [none] at before
    cases before
  rcases List.mem_cons.mp new with manager | child
  · cases manager
    rw [kind] at hkind
    cases hkind
    obtain rfl := List.mem_singleton.mp hs
    have notChild : m.createPartitionManagerName ∉ kept.map Prod.fst := by
      intro child
      obtain ⟨q, hq, same⟩ := List.mem_map.mp child
      exact (made.keptFresh q hq).2 same
    refine ⟨args.sourceName, ?_, (made.battery _ _).mpr (.inl registered)⟩
    rw [made.parents, if_neg notChild, if_pos rfl]
    exact List.mem_singleton_self _
  · rw [(made.child _ (made.isPrefix.subset child)).1] at hkind
    cases hkind
    obtain rfl := List.mem_singleton.mp hs
    refine ⟨m.createPartitionManagerName, ?_, (made.battery _ _).mpr (.inr List.mem_cons_self)⟩
    rw [made.parents, if_pos (List.mem_map_of_mem (f := Prod.fst) child)]
    exact List.mem_singleton_self _

theorem Grounded.removal (h : m.Grounded) (sound' : m'.Sound)
    (shrunk : BatteryDirectory.Shrunk m.directory m'.directory) (world : m'.world = m.world) :
    m'.Grounded := by
  intro name i kind stored hkind s hs
  rw [world] at hkind
  obtain ⟨p, parent, registered⟩ := h name i kind (shrunk.battery name i stored) hkind s hs
  rw [← shrunk.parents name i stored] at parent
  refine ⟨p, parent, ?_⟩
  obtain ⟨j, -, kept, -⟩ := sound'.directory.later p name (sound'.directory.mem_parents.mp parent)
  obtain rfl := Option.some.inj ((shrunk.battery p j kept).symm.trans registered)
  exact kept

theorem Grounded.step (h : m.Grounded) (sound : m.Sound) {call : Call}
    (run : m.step call = some m') : m'.Grounded := by
  cases step_cases sound run with
  | idles idles => exact h.idles sound idles
  | physical made kind children parents => exact h.physical sound made kind children parents
  | aggregate made =>
      obtain rfl := Option.some.inj run
      exact h.aggregate sound made fun _ kind _ => createAggregateBattery_parents kind
  | partition _ made => exact h.partitioned sound made
  | removal _ world shrunk sound' => exact h.removal sound' shrunk world

theorem exec_grounded (run : empty.exec calls = some m) : m.Grounded :=
  exec_along (P := fun _ _ => True) grounded_empty
    (fun _ _ _ sound h _ step => h.step sound step) (fun _ _ _ _ _ => trivial) run

theorem Grounded.below (h : m.Grounded) (registered : m.getBattery name = some i) {j : ℕ}
    (below : m.world.Below i j) : ∃ p, m.getBattery p = some j := by
  induction below with
  | refl => exact ⟨name, registered⟩
  | tail _ edge ih =>
      obtain ⟨q, stored⟩ := ih
      obtain ⟨kind, hkind, hs⟩ := edge
      obtain ⟨p, -, found⟩ := h q _ kind stored hkind _ hs
      exact ⟨p, found⟩

theorem Grounded.name_ne (h : m.Grounded) (sound : m.Sound) (registered : m.getBattery name = some i)
    {j : ℕ} (below : m.world.Below i j) (other : j ≠ i) :
    (m.world.battery j).batteryName ≠ (m.world.battery i).batteryName := by
  obtain ⟨p, found⟩ := h.below registered below
  rw [(sound.registered p j found).2, (sound.registered name i registered).2]
  rintro rfl
  exact other (Option.some.inj (found.symm.trans registered))

end BatteryDirectoryManager

end BatteryOS.V3
