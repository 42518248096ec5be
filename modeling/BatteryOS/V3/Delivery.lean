import BatteryOS.V3.Manager
import BatteryOS.V3.LockStep

/-! Delivery of a discharging request. A request goes down from a battery to the physical
batteries along all paths, split by charge at every aggregate. A physical battery that is reached
by several paths gets the sequence number several times, and adds the later shares to the pair
that the first has left. -/

namespace BatteryOS.V3

namespace World

/-- The physical batteries below a battery, once for every path down to them. -/
def ends (w : World) : ℕ → ℕ → List ℕ
  | 0, _ => []
  | fuel + 1, i =>
    match w.kind? i with
    | none => []
    | some .physical => [i]
    | some (.aggregate parents) => parents.flatMap (ends w fuel)
    | some (.partition source) => ends w fuel source
    | some (.partitionManager _ source _ _) => ends w fuel source

def shares (w : World) : ℕ → ℕ → ℚ → List (ℕ × ℚ)
  | 0, _, _ => []
  | fuel + 1, i, currentMA =>
    match w.kind? i with
    | none => []
    | some .physical => [(i, currentMA)]
    | some (.aggregate parents) => parents.flatMap fun s =>
        shares w fuel s (w.capacity s * (currentMA / w.capacity i))
    | some (.partition source) => shares w fuel source currentMA
    | some (.partitionManager _ source _ _) => shares w fuel source currentMA

def Below (w : World) (i : ℕ) : ℕ → Prop :=
  Relation.ReflTransGen (fun j s => ∃ kind, w.kind? j = some kind ∧ s ∈ kind.sources) i

/-- Batteries that can deliver: each stands on earlier ones of the set, and an aggregate holds
the positive sum of what its parents hold, none of them less than nothing. -/
structure Deliverable (w : World) (S : ℕ → Prop) : Prop where
  layered : w.Layered
  closed : ∀ i kind, S i → w.kind? i = some kind → ∀ s ∈ kind.sources, S s
  sum : ∀ i parents, S i → w.kind? i = some (.aggregate parents) →
    w.capacity i = (parents.map w.capacity).sum
  positive : ∀ i parents, S i → w.kind? i = some (.aggregate parents) → 0 < w.capacity i
  nonneg : ∀ i parents, S i → w.kind? i = some (.aggregate parents) →
    ∀ s ∈ parents, 0 ≤ w.capacity s

structure SameFlow (S : ℕ → Prop) (w w' : World) : Prop where
  kind : ∀ i, w'.kind? i = w.kind? i
  capacity : ∀ i, S i → w'.capacity i = w.capacity i

variable {w w' w'' : World} {S : ℕ → Prop} {i fuel : ℕ} {currentMA : ℚ}

theorem SameFlow.refl (w : World) : SameFlow S w w := ⟨fun _ => rfl, fun _ _ => rfl⟩

theorem SameFlow.trans (h : SameFlow S w w') (h' : SameFlow S w' w'') : SameFlow S w w'' :=
  ⟨fun i => (h'.kind i).trans (h.kind i),
    fun i hi => (h'.capacity i hi).trans (h.capacity i hi)⟩

theorem Refreshes.sameFlow (h : Refreshes w w') (summed : w.Summed S) : SameFlow S w w' :=
  ⟨h.kind, h.capacity S summed⟩

theorem Deliverable.summed (able : w.Deliverable S) : w.Summed S :=
  fun i parents hi hkind => ⟨able.closed i _ hi hkind, able.sum i parents hi hkind⟩

theorem SameFlow.deliverable (h : SameFlow S w w') (able : w.Deliverable S) :
    w'.Deliverable S where
  layered i kind hkind := able.layered i kind (h.kind i ▸ hkind)
  closed i kind hi hkind := able.closed i kind hi (h.kind i ▸ hkind)
  sum i parents hi hkind := by
    obtain ⟨inside, sum⟩ := able.summed i parents hi (h.kind i ▸ hkind)
    rw [h.capacity i hi, sum]
    exact congrArg List.sum (List.map_congr_left fun s hs => (h.capacity s (inside s hs)).symm)
  positive i parents hi hkind := by
    rw [h.capacity i hi]
    exact able.positive i parents hi (h.kind i ▸ hkind)
  nonneg i parents hi hkind s hs := by
    rw [h.capacity s ((able.summed i parents hi (h.kind i ▸ hkind)).1 s hs)]
    exact able.nonneg i parents hi (h.kind i ▸ hkind) s hs

theorem SameFlow.length (h : SameFlow S w w') : w'.length = w.length := length_of_kind h.kind

theorem SameFlow.shares_eq (h : SameFlow S w w') (able : w.Deliverable S) (hi : S i)
    (fuel : ℕ) (currentMA : ℚ) : w'.shares fuel i currentMA = w.shares fuel i currentMA := by
  induction fuel generalizing i currentMA with
  | zero => rfl
  | succ fuel ih =>
      simp only [shares, h.kind, h.capacity i hi]
      split
      · rfl
      · rfl
      · next parents hkind =>
          have inside := able.closed i _ hi hkind
          refine List.flatMap_congr fun s hs => ?_
          rw [h.capacity s (inside s hs), ih (inside s hs)]
      · next source hkind => exact ih (able.closed i _ hi hkind source (List.mem_singleton_self _)) _
      · next source _ _ hkind =>
          exact ih (able.closed i _ hi hkind source (List.mem_singleton_self _)) _

theorem shares_ends (w : World) (fuel i : ℕ) (currentMA : ℚ) :
    (w.shares fuel i currentMA).map Prod.fst = w.ends fuel i := by
  induction fuel generalizing i currentMA with
  | zero => rfl
  | succ fuel ih =>
      simp only [shares, ends]
      split
      · rfl
      · rfl
      · rw [List.map_flatMap]
        simp only [ih]
      · exact ih _ _
      · exact ih _ _

section Shares

variable (able : w.Deliverable S)
include able

theorem Deliverable.source_lt {kind : Kind} (hkind : w.kind? i = some kind) {s : ℕ}
    (hs : s ∈ kind.sources) : s < i ∧ s < w.length := by
  have below := able.layered i kind hkind s hs
  have := isSome_kind?.mp (Option.isSome_of_eq_some hkind)
  omega

theorem Deliverable.parents_ne_nil (inside : S i) {parents : List ℕ}
    (hkind : w.kind? i = some (.aggregate parents)) : parents ≠ [] := by
  rintro rfl
  have := able.positive i [] inside hkind
  rw [able.sum i [] inside hkind] at this
  exact lt_irrefl 0 this

theorem Deliverable.share_nonneg (inside : S i) {parents : List ℕ}
    (hkind : w.kind? i = some (.aggregate parents)) (nonneg : 0 ≤ currentMA) {s : ℕ} (hs : s ∈ parents) :
    0 ≤ w.capacity s * (currentMA / w.capacity i) :=
  mul_nonneg (able.nonneg i parents inside hkind s hs)
    (div_nonneg nonneg (able.positive i parents inside hkind).le)

theorem Deliverable.shares_nonneg (inside : S i) (nonneg : 0 ≤ currentMA) :
    ∀ q ∈ w.shares fuel i currentMA, 0 ≤ q.2 := by
  induction fuel generalizing i currentMA with
  | zero => exact fun q hq => by cases hq
  | succ fuel ih =>
      intro q hq
      simp only [shares] at hq
      split at hq
      · cases hq
      · rw [List.mem_singleton.mp hq]
        exact nonneg
      · next parents hkind =>
          obtain ⟨s, hs, hq⟩ := List.mem_flatMap.mp hq
          exact ih (able.closed i _ inside hkind s hs) (able.share_nonneg inside hkind nonneg hs) q hq
      · next source hkind =>
          exact ih (able.closed i _ inside hkind source (List.mem_singleton_self _)) nonneg q hq
      · next source _ _ hkind =>
          exact ih (able.closed i _ inside hkind source (List.mem_singleton_self _)) nonneg q hq

theorem Deliverable.shares_sum (inside : S i) (hi : i < fuel) (hw : i < w.length) :
    ((w.shares fuel i currentMA).map Prod.snd).sum = currentMA := by
  induction fuel generalizing i currentMA with
  | zero => exact absurd hi (Nat.not_lt_zero i)
  | succ fuel ih =>
      obtain ⟨kind, hkind⟩ := Option.isSome_iff_exists.mp (isSome_kind?.mpr hw)
      have source : ∀ s ∈ kind.sources, ∀ x, ((w.shares fuel s x).map Prod.snd).sum = x := by
        intro s hs x
        have := able.source_lt hkind hs
        exact ih (able.closed i kind inside hkind s hs) (by omega) this.2
      simp only [shares, hkind]
      cases kind with
      | physical => simp
      | aggregate parents =>
          have charged := (able.positive i parents inside hkind).ne'
          dsimp only
          rw [List.map_flatMap, List.flatMap_def, List.sum_flatten, List.map_map]
          calc
            (parents.map fun s => ((w.shares fuel s
                (w.capacity s * (currentMA / w.capacity i))).map Prod.snd).sum).sum =
                (parents.map fun s => w.capacity s * (currentMA / w.capacity i)).sum :=
              congrArg List.sum (List.map_congr_left fun s hs => source s hs _)
            _ = w.capacity i * (currentMA / w.capacity i) := by
              rw [List.sum_map_mul_right, ← able.sum i parents inside hkind]
            _ = currentMA := mul_div_cancel₀ currentMA charged
      | partition s => exact source s (List.mem_singleton_self s) currentMA
      | partitionManager policyType s children childProportions =>
          exact source s (List.mem_singleton_self s) currentMA

theorem Deliverable.ends_ne_nil (inside : S i) (hi : i < fuel) (hw : i < w.length) :
    w.ends fuel i ≠ [] := by
  induction fuel generalizing i with
  | zero => exact absurd hi (Nat.not_lt_zero i)
  | succ fuel ih =>
      obtain ⟨kind, hkind⟩ := Option.isSome_iff_exists.mp (isSome_kind?.mpr hw)
      have source : ∀ s ∈ kind.sources, w.ends fuel s ≠ [] := by
        intro s hs
        have := able.source_lt hkind hs
        exact ih (able.closed i kind inside hkind s hs) (by omega) this.2
      simp only [ends, hkind]
      cases kind with
      | physical => simp
      | aggregate parents =>
          obtain ⟨s, hs⟩ := List.exists_mem_of_ne_nil _ (able.parents_ne_nil inside hkind)
          obtain ⟨j, hj⟩ := List.exists_mem_of_ne_nil _ (source s hs)
          exact List.ne_nil_of_mem (List.mem_flatMap.mpr ⟨s, hs, hj⟩)
      | partition s => exact source s (List.mem_singleton_self s)
      | partitionManager policyType s children childProportions =>
          exact source s (List.mem_singleton_self s)

end Shares

end World

structure Demand where
  name : String
  startTime : ℤ
  endTime : ℤ
  sequenceNumber : ℕ

def Demand.pair (r : Demand) (currentMA : ℤ) : EventPair :=
  requestPair r.name currentMA r.startTime r.endTime r.sequenceNumber

namespace Battery

/-- What a request has left in a scheduler: one pair of the shares so far, and nothing else under
its number or its name. -/
structure Holds (r : Demand) (b : Battery) (currentMA : Option ℤ) : Prop where
  entry : b.eventMap.find? r.sequenceNumber = currentMA.map r.pair
  events : ∀ z, Scheduling r.sequenceNumber z →
    (z ∈ b.eventSet ↔ ∃ x ∈ currentMA, z = (r.pair x).first ∨ z = (r.pair x).second)
  others : ∀ k pair, k ≠ r.sequenceNumber → b.eventMap.find? k = some pair →
    pair.first.batteryName ≠ r.name

structure Unaware (r : Demand) (b : Battery) : Prop where
  entries : ∀ k pair, b.eventMap.find? k = some pair →
    k ≠ r.sequenceNumber ∧ pair.first.batteryName ≠ r.name
  events : ∀ z ∈ b.eventSet, ¬ Scheduling r.sequenceNumber z

structure Pending (r : Demand) (b : Battery) (currentMA : ℤ) : Prop where
  entry : b.eventMap.find? r.sequenceNumber = some (r.pair currentMA)
  events : ∀ z, Scheduling r.sequenceNumber z →
    (z ∈ b.eventSet ↔ z = (r.pair currentMA).first ∨ z = (r.pair currentMA).second)

variable {r : Demand} {b : Battery} {held : Option ℤ}

theorem Unaware.holds (h : b.Unaware r) : b.Holds r none where
  entry := Option.eq_none_iff_forall_ne_some.mpr fun pair stored => (h.entries _ pair stored).1 rfl
  events z hz := iff_of_false (fun member => h.events z member hz) (by simp)
  others k pair _ stored := (h.entries k pair stored).2

theorem Holds.pending {currentMA : ℤ} (h : b.Holds r (some currentMA)) : b.Pending r currentMA where
  entry := h.entry
  events z hz := by simpa using h.events z hz

theorem checkMerge_unnamed {name : String} {sequenceNumber : ℕ} (currentMA : ℚ)
    (startTime endTime : ℤ) (fresh : b.eventMap.find? sequenceNumber = none)
    (other : ∀ k pair, b.eventMap.find? k = some pair → pair.first.batteryName ≠ name) :
    b.checkMerge name currentMA startTime endTime sequenceNumber =
      ⟨b.eventSet, b.eventMap, currentMA⟩ := by
  simp only [checkMerge, fresh]
  have idle : ∀ k, mergeEntry name startTime endTime ⟨b.eventSet, b.eventMap, currentMA⟩ k =
      ⟨b.eventSet, b.eventMap, currentMA⟩ := by
    intro k
    cases stored : b.eventMap.find? k with
    | none => simp only [mergeEntry, stored]
    | some pair =>
        simp only [mergeEntry, stored, overlap_of_otherName name startTime endTime
          (other k pair stored)]
  generalize b.eventMap.keys = keys
  induction keys with
  | nil => rfl
  | cons k rest ih => rw [List.foldl_cons, idle, ih]

theorem Holds.checkMerge (h : b.Holds r held) (share : ℚ) :
    let m := b.checkMerge r.name share r.startTime r.endTime r.sequenceNumber
    m.targetCurrentMA = share + (held.getD 0 : ℤ) ∧
      (∀ k, m.eventMap.find? k =
        if k = r.sequenceNumber then none else b.eventMap.find? k) ∧
      ∀ z, Scheduling r.sequenceNumber z → z ∉ m.eventSet := by
  have entry := h.entry
  have events := h.events
  cases held with
  | some x =>
      simp only [Battery.checkMerge, entry, Option.map_some]
      refine ⟨rfl, OrderedMap.find?_erase _ _, fun z hz => ?_⟩
      rw [OrderedSet.mem_erase, OrderedSet.mem_erase]
      rintro ⟨⟨member, first⟩, second⟩
      obtain ⟨y, hy, rfl | rfl⟩ := (events z hz).mp member
      · exact first (by rw [Option.mem_some_iff.mp hy])
      · exact second (by rw [Option.mem_some_iff.mp hy])
  | none =>
      have other : ∀ k pair, b.eventMap.find? k = some pair →
          pair.first.batteryName ≠ r.name := by
        intro k pair stored
        refine h.others k pair (fun same => ?_) stored
        rw [same, entry] at stored
        cases stored
      rw [checkMerge_unnamed share r.startTime r.endTime entry other]
      refine ⟨by simp, fun k => ?_, fun z hz member => ?_⟩
      · split_ifs with same
        · rw [same]
          exact entry
        · rfl
      · obtain ⟨y, hy, -⟩ := (events z hz).mp member
        cases hy

theorem Holds.insertEvents (h : b.Holds r held) (share : ℚ) :
    (b.checkMergeAndInsertEvents r.name share r.startTime r.endTime r.sequenceNumber).Holds r
      (some (truncate (share + (held.getD 0 : ℤ)))) := by
  obtain ⟨target, find, free⟩ := h.checkMerge share
  simp only [checkMergeAndInsertEvents, target]
  have stored : ∀ k, ((b.checkMerge r.name share r.startTime r.endTime
      r.sequenceNumber).eventMap.insert r.sequenceNumber
        (r.pair (truncate (share + (held.getD 0 : ℤ))))).find? k =
      if k = r.sequenceNumber then some (r.pair (truncate (share + (held.getD 0 : ℤ))))
      else b.eventMap.find? k := by
    intro k
    rw [OrderedMap.find?_insert, find, if_pos rfl, find]
    split_ifs <;> rfl
  refine ⟨(stored _).trans (if_pos rfl), fun z hz => ?_, fun k pair hk at_k => ?_⟩
  · simp only [Option.mem_some_iff, exists_eq_left']
    rw [OrderedSet.mem_insert, OrderedSet.mem_insert, or_iff_right (free z hz)]
    refine or_congr (and_iff_left fun y hy same => ?_) (and_iff_left fun y hy same => ?_)
    · exact free y (keyClosed_scheduling _ _ y same.symm ⟨EventID.noConfusion, rfl⟩) hy
    · rcases OrderedSet.mem_insert.mp hy with hy | ⟨rfl, -⟩
      · exact free y (keyClosed_scheduling _ _ y same.symm ⟨EventID.noConfusion, rfl⟩) hy
      · cases (Event.key_eq_iff.mp same).2.1
  · have before := ((stored k).trans (if_neg hk)).symm.trans at_k
    exact h.others k pair hk before

theorem Holds.setStatus (h : b.Holds r held) (status : BatteryStatus) :
    { b with status := status }.Holds r held :=
  ⟨h.entry, h.events, h.others⟩

end Battery

open World

def tally (j : ℕ) (held : Option ℤ) (shares : List (ℕ × ℚ)) : Option ℤ :=
  shares.foldl (fun held share =>
    if share.1 = j then some (truncate (share.2 + (held.getD 0 : ℤ))) else held) held

def portion (j : ℕ) (shares : List (ℕ × ℚ)) : ℤ :=
  (shares.map fun share => if share.1 = j then ⌊share.2⌋ else 0).sum

theorem truncate_add_of_nonneg {x : ℚ} {n : ℤ} (hx : 0 ≤ x) (hn : 0 ≤ n) :
    truncate (x + n) = n + ⌊x⌋ := by
  have : (0 : ℚ) ≤ n := by exact_mod_cast hn
  rw [truncate, Truncation.truncate_of_nonneg (by linarith), Int.floor_add_intCast, add_comm]

theorem tally_eq {j : ℕ} {held : Option ℤ} {shares : List (ℕ × ℚ)}
    (nonneg : ∀ share ∈ shares, 0 ≤ share.2) (held_nonneg : ∀ x ∈ held, 0 ≤ x) :
    tally j held shares =
      if j ∈ shares.map Prod.fst then some (held.getD 0 + portion j shares) else held := by
  have start : 0 ≤ held.getD 0 := by
    cases held with
    | none => exact le_rfl
    | some x => exact held_nonneg x rfl
  induction shares generalizing held with
  | nil => rfl
  | cons share rest ih =>
      obtain ⟨hshare, hrest⟩ := List.forall_mem_cons.mp nonneg
      unfold tally
      rw [List.foldl_cons]
      by_cases same : share.1 = j
      · have floor : 0 ≤ ⌊share.2⌋ := Int.floor_nonneg.mpr hshare
        have sum : portion j (share :: rest) = ⌊share.2⌋ + portion j rest := by
          simp [portion, same]
        have step := truncate_add_of_nonneg hshare start
        have next : 0 ≤ truncate (share.2 + (held.getD 0 : ℤ)) := by omega
        rw [if_pos same, if_pos (by simp [same]), sum]
        refine (ih hrest (fun x hx => Option.mem_some_iff.mp hx ▸ next) next).trans ?_
        split_ifs with later
        · rw [Option.getD_some, step, add_assoc]
        · have none : portion j rest = 0 := by
            refine List.sum_eq_zero fun x hx => ?_
            obtain ⟨other, ho, rfl⟩ := List.mem_map.mp hx
            rw [if_neg]
            rintro rfl
            exact later (List.mem_map_of_mem ho)
          rw [step, none, add_zero]
      · have sum : portion j (share :: rest) = portion j rest := by
          simp [portion, same]
        rw [if_neg same, sum]
        refine (ih hrest held_nonneg start).trans ?_
        rw [List.map_cons]
        simp only [List.mem_cons, Ne.symm same, false_or]

theorem portion_nonneg {shares : List (ℕ × ℚ)} (nonneg : ∀ share ∈ shares, 0 ≤ share.2) (j : ℕ) :
    0 ≤ portion j shares := by
  refine List.sum_nonneg fun x hx => ?_
  obtain ⟨share, hshare, rfl⟩ := List.mem_map.mp hx
  split_ifs
  · exact Int.floor_nonneg.mpr (nonneg share hshare)
  · exact le_rfl

theorem sum_portion {shares : List (ℕ × ℚ)} {batteries : Finset ℕ}
    (all : ∀ share ∈ shares, share.1 ∈ batteries) :
    ∑ j ∈ batteries, portion j shares = (shares.map fun share => ⌊share.2⌋).sum := by
  induction shares with
  | nil => simp [portion]
  | cons share rest ih =>
      obtain ⟨inside, others⟩ := List.forall_mem_cons.mp all
      simp only [portion, List.map_cons, List.sum_cons, Finset.sum_add_distrib] at ih ⊢
      rw [ih others, Finset.sum_ite_eq, if_pos inside]

/-- Less than 1 mA is lost with each share. -/
theorem sum_floor_bounds (shares : List (ℕ × ℚ)) :
    (((shares.map fun share => ⌊share.2⌋).sum : ℤ) : ℚ) ≤ (shares.map Prod.snd).sum ∧
      (shares ≠ [] → (shares.map Prod.snd).sum <
        ((shares.map fun share => ⌊share.2⌋).sum : ℤ) + shares.length) := by
  induction shares with
  | nil => simp
  | cons share rest ih =>
      have below := Int.floor_le share.2
      have above := Int.lt_floor_add_one share.2
      simp only [List.map_cons, List.sum_cons, List.length_cons, Int.cast_add, Nat.cast_add,
        Nat.cast_one]
      refine ⟨by linarith [ih.1], fun _ => ?_⟩
      cases rest with
      | nil => simp [above]
      | cons next more => linarith [ih.2 (List.cons_ne_nil next more)]

structure Delivered (S : ℕ → Prop) (r : Demand) (w w' : World) (shares : List (ℕ × ℚ)) :
    Prop where
  flow : SameFlow S w w'
  holds : ∀ j, w.kind? j = some .physical → ∀ held, (w.battery j).Holds r held →
    (w'.battery j).Holds r (tally j held shares)

section Delivered

variable {S : ℕ → Prop} {r : Demand} {w w' w'' : World} {l l' : List (ℕ × ℚ)}

theorem Delivered.trans (h : Delivered S r w w' l) (h' : Delivered S r w' w'' l') :
    Delivered S r w w'' (l ++ l') where
  flow := h.flow.trans h'.flow
  holds j kind held before := by
    rw [tally, List.foldl_append]
    exact h'.holds j ((h.flow.kind j).trans kind) _ (h.holds j kind held before)

theorem delivered_of_refreshes (h : Refreshes w w') (summed : w.Summed S) :
    Delivered S r w w' [] where
  flow := h.sameFlow summed
  holds j _ held before := by
    rw [h.battery j]
    exact before.setStatus _

theorem Delivered.insertEvents (h : Delivered S r w w' l) {i : ℕ}
    (other : w.kind? i ≠ some .physical) (share : ℚ) :
    Delivered S r w (w'.insertEvents i r.name share r.startTime r.endTime r.sequenceNumber) l where
  flow := h.flow.trans
    { kind := fun j => kind?_setBattery _ _ _ _
      capacity := fun j _ => by
        rw [capacity, World.insertEvents, battery_setBattery]
        split_ifs <;> rfl }
  holds j kind held before := by
    have ne : i ≠ j := by
      rintro rfl
      exact other kind
    rw [World.insertEvents, battery_setBattery_of_ne _ _ ne]
    exact h.holds j kind held before

theorem delivered_physical {i : ℕ} (physical : w.kind? i = some .physical) (share : ℚ) :
    Delivered S r w (w.insertEvents i r.name share r.startTime r.endTime r.sequenceNumber)
      [(i, share)] where
  flow :=
    { kind := fun j => kind?_setBattery _ _ _ _
      capacity := fun j _ => by
        rw [capacity, World.insertEvents, battery_setBattery]
        split_ifs <;> rfl }
  holds j kind held before := by
    rw [World.insertEvents]
    by_cases same : i = j
    · subst same
      rw [battery_setBattery_self _ _ physical]
      simpa [tally] using before.insertEvents share
    · rw [battery_setBattery_of_ne _ _ same]
      simpa [tally, same] using before

theorem dispatch_delivers {get : World → ℕ → Option (BatteryStatus × World)}
    {send : World → ℕ → ℚ → Option (Bool × World)} {fuel : ℕ} {capacityMAh currentMA : ℚ}
    {parents : List ℕ} (able : w.Deliverable S)
    (inside : ∀ s ∈ parents, S s) (charged : capacityMAh ≠ 0) (nonneg : 0 ≤ currentMA)
    (gets : ∀ w', SameFlow S w w' → ∀ s ∈ parents, Gets get w' s)
    (sends : ∀ w', SameFlow S w w' → ∀ s ∈ parents, ∃ accepted w'',
      send w' s (w.capacity s * (currentMA / capacityMAh)) = some (accepted, w'') ∧
        (accepted = true → Delivered S r w' w''
          (w.shares fuel s (w.capacity s * (currentMA / capacityMAh))))) :
    ∃ accepted w', dispatch get send capacityMAh currentMA w parents = some (accepted, w') ∧
      (accepted = true → Delivered S r w w' (parents.flatMap fun s =>
        w.shares fuel s (w.capacity s * (currentMA / capacityMAh)))) := by
  induction parents generalizing w with
  | nil => exact ⟨true, w, rfl, fun _ => delivered_of_refreshes (.refl w) able.summed⟩
  | cons s rest ih =>
      obtain ⟨pStatus, w₁, got, refreshes, charge⟩ := gets w (.refl w) s List.mem_cons_self
      have flow := refreshes.sameFlow able.summed
      have share : targetCurrent capacityMAh currentMA pStatus =
          w.capacity s * (currentMA / capacityMAh) := by
        simp only [targetCurrent, calcCRate, if_neg charged, if_neg (not_lt.mpr nonneg),
          charge S able.summed (inside s List.mem_cons_self)]
      obtain ⟨accepted, w₂, sent, delivered⟩ := sends w₁ flow s List.mem_cons_self
      simp only [dispatch, got, share, sent, Option.bind_eq_bind, Option.bind_some]
      cases accepted with
      | false => exact ⟨false, w₂, rfl, fun h => by cases h⟩
      | true =>
          have first : Delivered S r w w₂ _ :=
            (delivered_of_refreshes refreshes able.summed).trans (delivered rfl)
          have insideRest := (List.forall_mem_cons.mp inside).2
          obtain ⟨accepted, w₃, others, later⟩ := ih (first.flow.deliverable able) insideRest
            (fun w' h s' hs' => gets w' (first.flow.trans h) s' (List.mem_cons_of_mem s hs'))
            fun w' h s' hs' => by
              rw [first.flow.capacity s' (insideRest s' hs'),
                first.flow.shares_eq able (insideRest s' hs')]
              exact sends w' (first.flow.trans h) s' (List.mem_cons_of_mem s hs')
          refine ⟨accepted, w₃, others, fun all => ?_⟩
          have all := first.trans (later all)
          rw [List.nil_append] at all
          rw [List.flatMap_cons]
          convert all using 2
          refine List.flatMap_congr fun s' hs' => ?_
          rw [first.flow.capacity s' (insideRest s' hs'),
            first.flow.shares_eq able (insideRest s' hs')]

theorem relay_delivers (now : ℤ) {fuel i s : ℕ} {currentMA : ℚ} {kind : Kind}
    (hkind : w.kind? i = some kind) (other : kind ≠ .physical)
    (source : ∃ accepted w₁, scheduleSetCurrent now r.startTime r.endTime r.name r.sequenceNumber
      fuel w s currentMA = some (accepted, w₁) ∧ (accepted = true → Delivered S r w w₁ l)) :
    ∃ accepted w',
      (scheduleSetCurrent now r.startTime r.endTime r.name r.sequenceNumber fuel w s currentMA).map
        (fun result => if result.1 then
            (true, result.2.insertEvents i r.name currentMA r.startTime r.endTime r.sequenceNumber)
          else (false, result.2)) = some (accepted, w') ∧
      (accepted = true → Delivered S r w w' l) := by
  obtain ⟨accepted, w₁, sent, delivered⟩ := source
  rw [sent, Option.map_some]
  cases accepted with
  | false => exact ⟨false, w₁, rfl, fun h => by cases h⟩
  | true =>
      refine ⟨true, _, rfl, fun _ => (delivered rfl).insertEvents ?_ currentMA⟩
      rw [hkind]
      exact fun h => other (Option.some.inj h)

theorem aggregate_delivers (r : Demand) (now : ℤ) {i fuel : ℕ} {currentMA : ℚ} {parents : List ℕ}
    (able : w.Deliverable S) (inside : S i) (hi : i < fuel + 1) (hw : i < w.length)
    (nonneg : 0 ≤ currentMA) (hkind : w.kind? i = some (.aggregate parents))
    (source : ∀ s ∈ parents, ∀ w', SameFlow S w w' → ∀ x, 0 ≤ x → ∃ accepted w'',
      scheduleSetCurrent now r.startTime r.endTime r.name r.sequenceNumber fuel w' s x =
        some (accepted, w'') ∧ (accepted = true → Delivered S r w' w'' (w.shares fuel s x))) :
    ∃ accepted w', scheduleSetCurrent now r.startTime r.endTime r.name r.sequenceNumber (fuel + 1)
        w i currentMA = some (accepted, w') ∧
      (accepted = true → Delivered S r w w' (parents.flatMap fun s =>
        w.shares fuel s (w.capacity s * (currentMA / w.capacity i)))) := by
  rw [scheduleSetCurrent_aggregate hkind]
  obtain ⟨status, w₁, got, refreshes, charge⟩ := getStatus_spec now able.layered hi hw
  have flow := refreshes.sameFlow able.summed
  simp only [got, Option.bind_some]
  split_ifs
  · exact ⟨false, w₁, rfl, fun h => by cases h⟩
  rw [charge S able.summed inside]
  have positive := able.positive i parents inside hkind
  have below := able.closed i _ inside hkind
  have gets : ∀ w', SameFlow S w₁ w' → ∀ s ∈ parents, Gets (getStatus now fuel) w' s := by
    intro w' h s hs
    have lt := able.source_lt hkind hs
    have both := flow.trans h
    exact getStatus_spec now (both.deliverable able).layered (by omega) (both.length ▸ lt.2)
  have sends : ∀ w', SameFlow S w₁ w' → ∀ s ∈ parents, ∃ accepted w'',
      scheduleSetCurrent now r.startTime r.endTime r.name r.sequenceNumber fuel w' s
          (w₁.capacity s * (currentMA / w.capacity i)) = some (accepted, w'') ∧
        (accepted = true → Delivered S r w' w''
          (w₁.shares fuel s (w₁.capacity s * (currentMA / w.capacity i)))) := by
    intro w' h s hs
    rw [flow.capacity s (below s hs), flow.shares_eq able (below s hs)]
    exact source s hs w' (flow.trans h) _ (able.share_nonneg inside hkind nonneg hs)
  obtain ⟨accepted, w₂, sent, delivered⟩ :=
    dispatch_delivers (flow.deliverable able) below positive.ne' nonneg gets sends
  refine ⟨accepted, w₂, sent, fun all => ?_⟩
  have all := (delivered_of_refreshes refreshes able.summed).trans (delivered all)
  rw [List.nil_append] at all
  convert all using 1
  refine List.flatMap_congr fun s hs => ?_
  rw [flow.capacity s (below s hs), flow.shares_eq able (below s hs)]

/-- A discharging request is delivered along all paths, or refused. -/
theorem scheduleSetCurrent_delivers (r : Demand) (now : ℤ) {i fuel : ℕ} {currentMA : ℚ}
    (able : w.Deliverable S) (inside : S i) (hi : i < fuel) (hw : i < w.length) (nonneg : 0 ≤ currentMA) :
    ∃ accepted w', scheduleSetCurrent now r.startTime r.endTime r.name r.sequenceNumber fuel w i
        currentMA = some (accepted, w') ∧
      (accepted = true → Delivered S r w w' (w.shares fuel i currentMA)) := by
  induction fuel generalizing w i currentMA with
  | zero => exact absurd hi (Nat.not_lt_zero i)
  | succ fuel ih =>
      obtain ⟨kind, hkind⟩ := Option.isSome_iff_exists.mp (isSome_kind?.mpr hw)
      have source : ∀ s ∈ kind.sources, ∀ w', SameFlow S w w' → ∀ x, 0 ≤ x → ∃ accepted w'',
          scheduleSetCurrent now r.startTime r.endTime r.name r.sequenceNumber fuel w' s x =
            some (accepted, w'') ∧ (accepted = true → Delivered S r w' w'' (w.shares fuel s x)) := by
        intro s hs w' flow x hx
        have below := able.source_lt hkind hs
        have below' := able.closed i kind inside hkind s hs
        rw [← flow.shares_eq able below']
        exact ih (flow.deliverable able) below' (by omega) (flow.length ▸ below.2) hx
      simp only [shares, hkind]
      cases kind with
      | physical =>
          rw [scheduleSetCurrent_physical hkind]
          split_ifs
          · exact ⟨false, w, rfl, fun h => by cases h⟩
          · exact ⟨true, _, rfl, fun _ => delivered_physical hkind currentMA⟩
      | aggregate parents => exact aggregate_delivers r now able inside hi hw nonneg hkind source
      | partition s =>
          rw [scheduleSetCurrent_partition hkind]
          split_ifs
          · exact ⟨false, w, rfl, fun h => by cases h⟩
          · exact relay_delivers now hkind (fun h => by cases h)
              (source s (List.mem_singleton_self s) w (.refl w) currentMA nonneg)
      | partitionManager policyType s children childProportions =>
          rw [scheduleSetCurrent_partitionManager hkind]
          exact relay_delivers now hkind (fun h => by cases h)
            (source s (List.mem_singleton_self s) w (.refl w) currentMA nonneg)

end Delivered

theorem World.kind?_of_mem_ends {w : World} {fuel i j : ℕ} (h : j ∈ w.ends fuel i) :
    w.Below i j ∧ w.kind? j = some .physical := by
  induction fuel generalizing i with
  | zero => cases h
  | succ fuel ih =>
      simp only [ends] at h
      split at h
      · cases h
      · next kind =>
          rw [List.mem_singleton.mp h]
          exact ⟨.refl, kind⟩
      · next parents kind =>
          obtain ⟨s, hs, h⟩ := List.mem_flatMap.mp h
          exact ⟨.head ⟨_, kind, hs⟩ (ih h).1, (ih h).2⟩
      · next source kind =>
          exact ⟨.head ⟨_, kind, List.mem_singleton_self source⟩ (ih h).1, (ih h).2⟩
      · next source _ _ kind =>
          exact ⟨.head ⟨_, kind, List.mem_singleton_self source⟩ (ih h).1, (ih h).2⟩

structure World.Charged (w : World) (g : ℕ) (parents : List ℕ) : Prop where
  sum : w.capacity g = (parents.map w.capacity).sum
  positive : 0 < w.capacity g
  nonneg : ∀ s ∈ parents, 0 ≤ w.capacity s

namespace BatteryDirectoryManager

variable {m : BatteryDirectoryManager} {calls : List Call}

/-- A discharging request on any registered battery returns. When it is accepted, every physical
battery below holds one pair for it, and the currents of the pairs differ from the request by
less than 1 mA for each path. -/
theorem delivery (run : empty.exec calls = some m) {name : String} {i : ℕ}
    (registered : m.getBattery name = some i)
    (charged : ∀ g parents, m.world.Below i g → m.world.kind? g = some (.aggregate parents) →
      m.world.Charged g parents)
    (r : Demand) (unaware : ∀ j, m.world.Below i j → m.world.kind? j = some .physical →
      (m.world.battery j).Unaware r)
    (now : ℤ) {currentMA : ℚ} (nonneg : 0 ≤ currentMA) {fuel : ℕ} (hi : i < fuel) :
    ∃ accepted w', scheduleSetCurrent now r.startTime r.endTime r.name r.sequenceNumber fuel
        m.world i currentMA = some (accepted, w') ∧
      (accepted = true → ∃ currents : ℕ → ℤ,
        (∀ j ∈ m.world.ends fuel i, 0 ≤ currents j ∧ (w'.battery j).Pending r (currents j)) ∧
        |((∑ j ∈ (m.world.ends fuel i).toFinset, currents j : ℤ) : ℚ) - currentMA| <
          (m.world.ends fuel i).length) := by
  have sound := exec_sound run
  have hw := (sound.registered name i registered).1
  have able : m.world.Deliverable (m.world.Below i) :=
    { layered := sound.layered
      closed := fun g kind below hkind s hs => below.tail ⟨kind, hkind, hs⟩
      sum := fun g parents below hkind => (charged g parents below hkind).sum
      positive := fun g parents below hkind => (charged g parents below hkind).positive
      nonneg := fun g parents below hkind => (charged g parents below hkind).nonneg }
  obtain ⟨accepted, w', returned, delivered⟩ :=
    scheduleSetCurrent_delivers r now able .refl hi hw nonneg
  refine ⟨accepted, w', returned, fun accept => ?_⟩
  have ends := m.world.shares_ends fuel i currentMA
  have shares_nonneg : ∀ q ∈ m.world.shares fuel i currentMA, 0 ≤ q.2 :=
    able.shares_nonneg .refl nonneg
  have sum : ((m.world.shares fuel i currentMA).map Prod.snd).sum = currentMA :=
    able.shares_sum .refl hi hw
  have delivered := delivered accept
  generalize m.world.shares fuel i currentMA = l at ends shares_nonneg sum delivered
  refine ⟨fun j => portion j l, fun j hj => ?_, ?_⟩
  · obtain ⟨below, physical⟩ := World.kind?_of_mem_ends hj
    have holds := delivered.holds j physical none (unaware j below physical).holds
    rw [tally_eq shares_nonneg (fun x hx => by cases hx), if_pos (ends ▸ hj)] at holds
    refine ⟨portion_nonneg shares_nonneg j, ?_⟩
    simpa using holds.pending
  · have some : l ≠ [] := by
      intro nil
      rw [nil] at ends
      exact able.ends_ne_nil .refl hi hw ends.symm
    rw [sum_portion fun share hshare => List.mem_toFinset.mpr (ends ▸ List.mem_map_of_mem hshare),
      ← ends, List.length_map, abs_lt]
    obtain ⟨below, above⟩ := sum_floor_bounds l
    have above := above some
    rw [sum] at below above
    constructor <;> linarith

def chargedBattery (capacityMAh : ℚ) : Battery :=
  { Battery.new "" 1000 .lazy with status := ⟨0, 0, capacityMAh, 1000, 1000, 1000, 0⟩ }

def diamond : List Call :=
  [.createPhysicalBattery "p" 1000 .lazy, .update 0 (chargedBattery 1000),
    .createPartitionBattery
      ⟨0, "p", .proportional, ["a", "b"], [⟨1/2, 1/2⟩, ⟨1/2, 1/2⟩], [1000, 1000], [.lazy, .lazy]⟩,
    .createAggregateBattery 0 "g" ["a", "b"] 1000 .lazy, .update 4 (chargedBattery 1000)]

set_option synthInstance.maxSize 256 in
/-- 101 mA go down both halves of the diamond. -/
theorem delivery_diamond : ∃ m, empty.exec diamond = some m ∧
    ∃ accepted w', scheduleSetCurrent 0 10 50 "g" 7 5 m.world 4 101 = some (accepted, w') ∧
      (accepted = true → ∃ currents : ℕ → ℤ,
        (∀ j ∈ m.world.ends 5 4,
          0 ≤ currents j ∧ (w'.battery j).Pending ⟨"g", 10, 50, 7⟩ (currents j)) ∧
        |((∑ j ∈ (m.world.ends 5 4).toFinset, currents j : ℤ) : ℚ) - 101| <
          (m.world.ends 5 4).length) := by
  obtain ⟨m, run, state⟩ := Option.map_eq_some_iff.mp (show
    (empty.exec diamond).map (fun m => (m.getBattery "g", m.world.map Node.kind,
        [2, 3, 4].map m.world.capacity, (m.world.battery 0).eventMap.elems,
        (m.world.battery 0).eventSet.elems)) =
      some (some 4, [.physical, .partitionManager .proportional 0 [2, 3] [⟨1/2, 1/2⟩, ⟨1/2, 1/2⟩],
        .partition 1, .partition 1, .aggregate [2, 3]], [500, 500, 1000], [], []) by
          decide +kernel)
  obtain ⟨registered, kinds, charge, entries, events⟩ := by simpa only [Prod.mk_inj] using state
  have kind : ∀ j, m.world.kind? j = ([.physical,
      .partitionManager .proportional 0 [2, 3] [⟨1/2, 1/2⟩, ⟨1/2, 1/2⟩], .partition 1,
      .partition 1, .aggregate [2, 3]] : List Kind)[j]? := by
    intro j
    rw [World.kind?, ← kinds, List.getElem?_map]
  refine ⟨m, run, delivery run registered (fun g parents _ hkind => ?_) ⟨"g", 10, 50, 7⟩
    (fun j _ hkind => ?_) 0 (by norm_num) (by norm_num)⟩
  · rw [kind] at hkind
    obtain rfl : g = 4 := by
      rcases g with _ | _ | _ | _ | _ | g
      all_goals first | rfl | simp at hkind
    obtain rfl : [2, 3] = parents := by simpa using hkind
    simp only [List.map_cons, List.map_nil, List.cons.injEq, and_true] at charge
    obtain ⟨a, b, g⟩ := charge
    refine ⟨?_, ?_, ?_⟩
    · norm_num [a, b, g]
    · norm_num [g]
    · simp [a, b]
  · rw [kind] at hkind
    obtain rfl : j = 0 := by
      rcases j with _ | _ | _ | _ | _ | j
      all_goals first | rfl | simp at hkind
    refine ⟨fun k pair stored => ?_, fun z hz => ?_⟩
    · have stored := OrderedMap.find?_eq_some.mp stored
      rw [OrderedSet.mem_def, entries] at stored
      cases stored
    · rw [OrderedSet.mem_def, events] at hz
      cases hz

def joined : List Call :=
  [.createPhysicalBattery "p" 1000 .lazy, .update 0 (chargedBattery 100),
    .createAggregateBattery 0 "g" ["p"] 1000 .lazy, .update 1 (chargedBattery 100)]

def overdrawn : List Call :=
  [.createPhysicalBattery "p" 1000 .lazy, .update 0 (chargedBattery (-100)),
    .createPhysicalBattery "q" 1000 .lazy, .update 1 (chargedBattery 300),
    .createAggregateBattery 0 "g" ["p", "q"] 1000 .lazy, .update 2 (chargedBattery 200)]

/-- A second request of an aggregate inside its first one, a request over a parent below zero,
and a number that is used again: all are accepted. -/
theorem delivery_disturbed :
    (∃ m w w', empty.exec joined = some m ∧
      scheduleSetCurrent 0 10 100 "g" 1 2 m.world 1 50 = some (true, w) ∧
      (w.battery 1).eventMap.elems = [] ∧
      scheduleSetCurrent 0 20 30 "g" 2 2 w 1 30 = some (true, w') ∧
      (w'.battery 0).eventMap.find? 2 = some (requestPair "g" (-20) 20 30 2)) ∧
    (∃ m w, empty.exec overdrawn = some m ∧
      scheduleSetCurrent 0 10 100 "g" 1 3 m.world 2 20 = some (true, w) ∧
      (w.battery 0).eventMap.find? 1 = some (requestPair "g" (-10) 10 100 1)) ∧
    ∃ m w w', empty.exec [.createPhysicalBattery "p" 1000 .lazy, .update 0 (chargedBattery 100)] =
        some m ∧
      scheduleSetCurrent 0 10 100 "x" 1 1 m.world 0 40 = some (true, w) ∧
      scheduleSetCurrent 0 20 30 "p" 1 1 w 0 10 = some (true, w') ∧
      (w'.battery 0).eventMap.find? 1 = some (requestPair "p" 50 20 30 1) := by
  refine ⟨?_, ?_, ?_⟩
  · obtain ⟨m, run, rest⟩ := Option.bind_eq_some_iff.mp (show
      (empty.exec joined).bind (fun m =>
        (scheduleSetCurrent 0 10 100 "g" 1 2 m.world 1 50).bind fun first =>
          (scheduleSetCurrent 0 20 30 "g" 2 2 first.2 1 30).map fun second =>
            (first.1, (first.2.battery 1).eventMap.elems, second.1,
              (second.2.battery 0).eventMap.find? 2)) =
        some (true, [], true, some (requestPair "g" (-20) 20 30 2)) by decide +kernel)
    obtain ⟨⟨first, w⟩, send, rest⟩ := Option.bind_eq_some_iff.mp rest
    obtain ⟨⟨second, w'⟩, send', state⟩ := Option.map_eq_some_iff.mp rest
    obtain ⟨rfl, none, rfl, pair⟩ := by simpa only [Prod.mk_inj] using state
    exact ⟨m, w, w', run, send, none, send', pair⟩
  · obtain ⟨m, run, rest⟩ := Option.bind_eq_some_iff.mp (show
      (empty.exec overdrawn).bind (fun m =>
        (scheduleSetCurrent 0 10 100 "g" 1 3 m.world 2 20).map fun result =>
          (result.1, (result.2.battery 0).eventMap.find? 1)) =
        some (true, some (requestPair "g" (-10) 10 100 1)) by decide +kernel)
    obtain ⟨⟨accepted, w⟩, send, state⟩ := Option.map_eq_some_iff.mp rest
    obtain ⟨rfl, pair⟩ := by simpa only [Prod.mk_inj] using state
    exact ⟨m, w, run, send, pair⟩
  · obtain ⟨m, run, rest⟩ := Option.bind_eq_some_iff.mp (show
      (empty.exec [.createPhysicalBattery "p" 1000 .lazy, .update 0 (chargedBattery 100)]).bind
        (fun m => (scheduleSetCurrent 0 10 100 "x" 1 1 m.world 0 40).bind fun first =>
          (scheduleSetCurrent 0 20 30 "p" 1 1 first.2 0 10).map fun second =>
            (first.1, second.1, (second.2.battery 0).eventMap.find? 1)) =
        some (true, true, some (requestPair "p" 50 20 30 1)) by decide +kernel)
    obtain ⟨⟨first, w⟩, send, rest⟩ := Option.bind_eq_some_iff.mp rest
    obtain ⟨⟨second, w'⟩, send', state⟩ := Option.map_eq_some_iff.mp rest
    obtain ⟨rfl, rfl, pair⟩ := by simpa only [Prod.mk_inj] using state
    exact ⟨m, w, w', run, send, send', pair⟩

end BatteryDirectoryManager

end BatteryOS.V3
