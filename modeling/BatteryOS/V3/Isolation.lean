import BatteryOS.V3.Partition

/-! Siblings do not interfere. The queue of a manager, and that of its source, takes the requests
of all children. What it holds under one name is what it would hold had only the requests of
that name been made: the requests of the others could as well be taken out of the run. -/

namespace BatteryOS.V3

theorem Battery.owned_new (owner : ℕ → String) (name : String) (maxStaleness : ℤ)
    (refreshMode : RefreshMode) : (Battery.new name maxStaleness refreshMode).Owned owner where
  numbered k pair stored := by cases stored
  entries k pair stored := by cases stored
  events z hz := absurd hz (OrderedSet.not_mem_empty z)

namespace ChildCall

variable {b b' : Battery} {owner : ℕ → String} {name : String}

def insertAll (calls : List ChildCall) (b : Battery) : Battery :=
  calls.foldl (fun b call => call.insertInto b) b

theorem owned_insertAll {calls : List ChildCall}
    (owns : ∀ call ∈ calls, owner call.sequenceNumber = call.name) (h : b.Owned owner) :
    (insertAll calls b).Owned owner := by
  induction calls generalizing b with
  | nil => exact h
  | cons call rest ih =>
      obtain ⟨first, others⟩ := List.forall_mem_cons.mp owns
      exact ih others (owned_insertInto first h)

theorem lockStep_insertAll {calls : List ChildCall}
    (owns : ∀ call ∈ calls, owner call.sequenceNumber = call.name) (h : b.Owned owner)
    (h' : b'.Owned owner) (step : Battery.LockStep (fun k => owner k = name) b b') :
    Battery.LockStep (fun k => owner k = name) (insertAll calls b)
      (insertAll (calls.filter fun call => call.name = name) b') := by
  induction calls generalizing b b' with
  | nil => exact step
  | cons call rest ih =>
      obtain ⟨first, others⟩ := List.forall_mem_cons.mp owns
      have next := owned_insertInto first h
      by_cases same : call.name = name
      · rw [List.filter_cons_of_pos (by simpa using same)]
        exact ih others next (owned_insertInto first h')
          (lockStep_insertInto first h h' same step)
      · rw [List.filter_cons_of_neg (by simpa using same)]
        exact ih others next h' ((lockStep_insertInto_other first h same).trans step)

/-- Noninterference: where every sequence number belongs to one name, the entries and the BEGIN,
END and CANCEL events of a name are those of the requests of that name alone. -/
theorem insertAll_sameUnder {calls : List ChildCall}
    (owns : ∀ call ∈ calls, owner call.sequenceNumber = call.name) (h : b.Owned owner)
    (name : String) :
    Battery.SameUnder name (insertAll calls b)
      (insertAll (calls.filter fun call => call.name = name) b) := by
  refine Battery.Owned.sameUnder ?_ (owned_insertAll owns h)
    (owned_insertAll (fun call hc => owns call (List.mem_of_mem_filter hc)) h)
  exact lockStep_insertAll owns h h ⟨fun _ _ => rfl, fun k _ => .refl _ _⟩

def siblings : List ChildCall :=
  [⟨2, 0, 100, 10, 50, "a", 1⟩, ⟨3, 0, 200, 20, 60, "b", 2⟩, ⟨2, 0, 50, 0, 100, "a", 3⟩,
    ⟨3, 0, 70, 30, 80, "b", 4⟩]

def siblingOwner (sequenceNumber : ℕ) : String := if sequenceNumber % 2 = 1 then "a" else "b"

theorem insertAll_sameUnder_siblings :
    Battery.SameUnder "b" (insertAll siblings (Battery.new "p" 1000 .lazy))
      (insertAll (siblings.filter fun call => call.name = "b") (Battery.new "p" 1000 .lazy)) := by
  have owns : ∀ call ∈ siblings, siblingOwner call.sequenceNumber = call.name := by decide
  exact insertAll_sameUnder owns (Battery.owned_new _ _ _ _) "b"

end ChildCall

end BatteryOS.V3
