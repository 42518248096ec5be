import BatteryOS.V3.Profile

/-! Progress of the event thread. The scan inserts refreshes into the set it walks, later
ones each time, so it comes to its end; and every batch that does not settle the queue at
its wake-up time uses up a cancel. -/

namespace BatteryOS.V3

/-- In ACTIVE mode the next refresh is really later. -/
def Battery.Live (b : Battery) : Prop := b.refreshMode = .lazy ∨ 0 < b.maxStaleness

instance (b : Battery) : Decidable b.Live := inferInstanceAs (Decidable (_ ∨ _))

/-- No REFRESH that is due leads to another that is not later. -/
def Battery.Steady (b : Battery) (now : ℤ) : Prop :=
  b.Live ∨ ∀ z ∈ b.eventSet, z.eventID = .refresh → now < z.eventTime

instance (b : Battery) (now : ℤ) : Decidable (b.Steady now) := inferInstanceAs (Decidable (_ ∨ _))

theorem Battery.Steady.live {b : Battery} {now : ℤ} (h : b.Steady now) {iter : Event}
    (hiter : iter ∈ b.eventSet) (hid : iter.eventID = .refresh) (due : iter.eventTime ≤ now) :
    b.Live :=
  h.resolve_right fun later => absurd (later iter hiter hid) (not_lt.mpr due)

theorem Refreshed.live {b b' : Battery} (h : Refreshed b b') (live : b.Live) : b'.Live := by
  rwa [Battery.Live, h.refreshMode, h.maxStaleness]

section Scan

/-- How many times an event that is due can still be visited, with the refreshes it leads to. -/
def visits (now : ℤ) (z : Event) : ℕ :=
  if z.eventTime ≤ now then (now - z.eventTime).toNat + 1 else 0

def remaining (now : ℤ) (s : EventSet) : Option Event → ℕ
  | none => 0
  | some iter => (s.elems.map fun z => if iter.key ≤ z.key then visits now z else 0).sum

variable {now : ℤ}

private theorem visits_split {x : Event} {xs : List Event}
    (sorted : xs.Pairwise (fun x y => x.key < y.key)) (hx : x ∈ xs) :
    (xs.map fun z => if x.key < z.key then visits now z else 0).sum + visits now x =
      (xs.map fun z => if x.key ≤ z.key then visits now z else 0).sum := by
  induction xs with
  | nil => simp at hx
  | cons z zs ih =>
      have hz : ∀ y ∈ zs, z.key < y.key := fun _ => List.rel_of_pairwise_cons sorted
      rw [List.map_cons, List.map_cons, List.sum_cons, List.sum_cons]
      rcases List.mem_cons.mp hx with rfl | hx
      · have same : (zs.map fun y => if x.key < y.key then visits now y else 0) =
            zs.map fun y => if x.key ≤ y.key then visits now y else 0 :=
          List.map_congr_left fun y hy => by rw [if_pos (hz y hy), if_pos (hz y hy).le]
        rw [same, if_neg (lt_irrefl _), if_pos le_rfl]
        omega
      · have later := hz x hx
        rw [if_neg later.asymm, if_neg (not_le.mpr later), ← ih sorted.of_cons hx]
        omega

variable (now)

theorem remaining_next {s : EventSet} {x : Event} (hx : x ∈ s) :
    remaining now s (s.next x) + visits now x ≤ remaining now s (some x) := by
  rw [remaining, ← visits_split s.sorted hx]
  refine Nat.add_le_add_right ?_ _
  cases hnext : s.next x with
  | none => exact Nat.zero_le _
  | some y =>
      refine List.sum_le_sum fun z _ => ?_
      have hlt := (OrderedSet.next_eq_some hnext).2.1
      by_cases hz : y.key ≤ z.key
      · rw [if_pos hz, if_pos (hlt.trans_le hz)]
      · rw [if_neg hz]
        exact Nat.zero_le _

theorem remaining_insert (s : EventSet) (x y : Event) :
    remaining now (s.insert y) (some x) ≤ remaining now s (some x) + visits now y := by
  by_cases free : ∀ z ∈ s, z.key ≠ y.key
  · have perm := (OrderedSet.insert_elems_perm free).map
      fun z => if x.key ≤ z.key then visits now z else 0
    rw [remaining, perm.sum_eq, List.map_cons, List.sum_cons, add_comm]
    refine Nat.add_le_add_left ?_ _
    split_ifs
    · exact le_rfl
    · exact Nat.zero_le _
  · push Not at free
    obtain ⟨z, hz, same⟩ := free
    rw [OrderedSet.insert_of_taken hz same]
    exact Nat.le_add_right _ _

theorem refreshAt_remaining (driver : Driver) {b : Battery} (sequenceNumber : ℕ) {iter : Event}
    (live : b.Live) (due : iter.eventTime ≤ now) (hiter : iter ∈ b.eventSet) :
    let next := (b.refreshAt driver now sequenceNumber iter).1
    remaining now next.eventSet (next.eventSet.next iter) <
      remaining now b.eventSet (some iter) := by
  have visited : visits now iter = (now - iter.eventTime).toNat + 1 := if_pos due
  unfold Battery.refreshAt
  split_ifs with active
  · have stale : 0 < b.maxStaleness := live.resolve_left (by simp [active])
    dsimp only
    generalize hnew : ({ iter with
      eventTime := iter.eventTime + b.maxStaleness
      sequenceNumber := sequenceNumber } : Event) = new
    have fewer : visits now new < visits now iter := by
      rw [visited, ← hnew]
      unfold visits
      split_ifs <;> dsimp only at * <;> omega
    have step := remaining_next now (OrderedSet.mem_insert.mpr (.inl hiter) :
      iter ∈ b.eventSet.insert new)
    have grown := remaining_insert now b.eventSet iter new
    omega
  · have step := remaining_next now hiter
    dsimp only
    omega

theorem scan_isSome (driver : Driver) {fuel : ℕ} {b : Battery} (sequenceNumber : ℕ)
    (eventVector : List Event) {iter : Option Event} (steady : b.Steady now)
    (hiter : ∀ x, iter = some x → x ∈ b.eventSet) (enough : remaining now b.eventSet iter < fuel) :
    ∃ r, scan driver now fuel b sequenceNumber eventVector iter = some r := by
  induction fuel generalizing b sequenceNumber eventVector iter with
  | zero => simp at enough
  | succ fuel ih =>
      cases iter with
      | none => exact ⟨_, rfl⟩
      | some iter =>
          have hmem := hiter iter rfl
          rw [scan]
          split_ifs with hdue
          · exact ⟨_, rfl⟩
          have due : iter.eventTime ≤ now := not_lt.mp hdue
          have visited : visits now iter = (now - iter.eventTime).toNat + 1 := if_pos due
          cases hid : iter.eventID with
          | setCurrentBegin | setCurrentEnd =>
              have step := remaining_next now hmem
              exact ih _ _ steady (fun x hx => (OrderedSet.next_eq_some hx).1) (by omega)
          | cancelSetCurrentEvent => exact ⟨_, rfl⟩
          | refresh =>
              have live := steady.live hmem hid due
              have step := refreshAt_remaining now driver sequenceNumber live due hmem
              have live' := (refreshAt_refreshed driver now b sequenceNumber hid).live live
              exact ih _ _ (.inl live') (fun x hx => (OrderedSet.next_eq_some hx).1)
                (by dsimp only at step; omega)

end Scan

namespace Battery

def Settled (b : Battery) (now : ℤ) : Prop :=
  ∀ z ∈ b.eventSet, z.eventID ≠ .refresh → now < z.eventTime

instance (b : Battery) (now : ℤ) : Decidable (b.Settled now) :=
  inferInstanceAs (Decidable (∀ z ∈ b.eventSet, z.eventID ≠ .refresh → now < z.eventTime))

def cancels (b : Battery) : Finset Event :=
  (b.eventSet.elems.filter fun z => z.eventID = .cancelSetCurrentEvent).toFinset

theorem mem_cancels {b : Battery} {z : Event} :
    z ∈ b.cancels ↔ z ∈ b.eventSet ∧ z.eventID = .cancelSetCurrentEvent := by
  simp [cancels, OrderedSet.mem_def]

theorem settled_or_fewer_cancels {now : ℤ} {b b' : Battery} {eventVector : List Event}
    {iter : Option Event} (batch : Processed now b b' eventVector iter) :
    b'.Settled now ∨ b'.cancels ⊂ b.cancels := by
  by_cases cancels : ∃ x, iter = some x ∧ x.eventID = .cancelSetCurrentEvent
  · obtain ⟨x, hx, hid⟩ := cancels
    have hmem := batch.iter_mem x hx (by simp [hid])
    refine .inr ⟨fun z hz => ?_, fun sub => ?_⟩
    · obtain ⟨hz, zid⟩ := mem_cancels.mp hz
      exact mem_cancels.mpr ⟨((batch.mem_cancel z zid).mp hz).1, zid⟩
    · have kept := (mem_cancels.mp (sub (mem_cancels.mpr ⟨hmem, hid⟩))).1
      exact ((batch.mem_cancel x hid).mp kept).2 x hx rfl
  · refine .inl fun z hz hid => ?_
    obtain ⟨-, x, hx, hle⟩ := batch.later hz hid
    have late := (batch.stopped x hx).resolve_right fun xid => cancels ⟨x, hx, xid⟩
    exact late.trans_le (Event.eventTime_le_of_key_le hle)

/-- On a live battery whose cancels are stored, a batch comes to its end. -/
theorem exists_done {b : Battery} (live : b.Live) (stored : b.CancelsStored) (driver : Driver)
    (sequenceNumber : ℕ) (now : ℤ) : ∃ fuel b' sequenceNumber' commanded,
      b.runEventThread driver fuel sequenceNumber now = .done b' sequenceNumber' commanded := by
  let fuel := remaining now b.eventSet b.eventSet.begin + 1
  obtain ⟨r, scanned⟩ := scan_isSome now driver sequenceNumber [] (.inl live)
    (fun x hx => (OrderedSet.begin_eq_some hx).1) (Nat.lt_succ_self _)
  have throws := stored.ne_outOfRange driver fuel sequenceNumber now
  refine ⟨fuel, ?_⟩
  rw [runEventThread, scanned] at throws ⊢
  cases hcancel : r.battery.cancel r.iter with
  | none => simp [hcancel] at throws
  | some c =>
      simp only [hcancel]
      exact ⟨_, _, _, rfl⟩

end Battery

namespace Scheduler

def Settled (σ : Scheduler) : Prop := σ.battery.Settled σ.clock

instance (σ : Scheduler) : Decidable σ.Settled :=
  inferInstanceAs (Decidable (σ.battery.Settled σ.clock))

variable {driver : Driver} {σ : Scheduler}

theorem exists_settled (driver : Driver) (h : σ.battery.Scheduled σ.clock) (live : σ.battery.Live) {t : ℤ}
    (ht : σ.clock ≤ t) : ∃ τ, Run driver (fun _ _ => False) σ τ ∧ τ.clock = t ∧ τ.Settled := by
  obtain ⟨n, hn⟩ : ∃ n, σ.battery.cancels.card = n := ⟨_, rfl⟩
  induction n using Nat.strong_induction_on generalizing σ with
  | _ n ih =>
      obtain ⟨fuel, b, k, commanded, done⟩ :=
        Battery.exists_done live h.order.cancelsStored driver σ.sequenceNumber t
      obtain ⟨_, _, batch, -⟩ := h.consistent.processed done
      have first : Run driver (fun _ _ => False) σ (σ.wake t b k commanded) := .batch .refl ht done
      rcases Battery.settled_or_fewer_cancels batch with settled | fewer
      · exact ⟨_, first, rfl, settled⟩
      have live' : b.Live := by
        rwa [Battery.Live, batch.refreshMode, batch.maxStaleness]
      obtain ⟨τ, run, clock, settled⟩ := ih _ (hn ▸ Finset.card_lt_card fewer)
        (σ := σ.wake t b k commanded) (h.runEventThread ht done) live' le_rfl rfl
      exact ⟨τ, first.trans run fun _ _ => id, clock, settled⟩

end Scheduler

end BatteryOS.V3
