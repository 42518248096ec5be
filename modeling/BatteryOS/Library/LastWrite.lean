import BatteryOS.Library.StepRun

/-! A store of cells under writes that each cover some of them. It should hold in every cell the
value of the last write that covers it; where a write leaves the other cells alone it does so in
exactly the runs whose writes reach every cell that they cover. -/

namespace LastWrite

variable {κ α β τ : Type*} (covers : α → κ → Prop) [∀ w k, Decidable (covers w k)] (value : α → β)
  (default : β)

/-- The value of the last write that covers a cell, the default where none does. -/
def lastWrite (writes : List α) (k : κ) : β :=
  ((writes.reverse.find? fun w => covers w k).map value).getD default

@[simp] theorem lastWrite_nil (k : κ) : lastWrite covers value default [] k = default := rfl

theorem lastWrite_concat (writes : List α) (w : α) (k : κ) :
    lastWrite covers value default (writes ++ [w]) k =
      if covers w k then value w else lastWrite covers value default writes k := by
  unfold lastWrite
  rw [List.reverse_append, List.reverse_singleton, List.singleton_append, List.find?_cons]
  by_cases h : covers w k <;> simp [h]

def step (write : τ → α → τ) (σ : List α × τ) (w : α) : Option (List α × τ) :=
  some (σ.1 ++ [w], write σ.2 w)

def Reflects (read : τ → κ → β) (σ : List α × τ) : Prop :=
  ∀ k, read σ.2 k = lastWrite covers value default σ.1 k

def Reaches (read : τ → κ → β) (write : τ → α → τ) (σ : List α × τ) (w : α) : Prop :=
  ∀ k, covers w k → read (write σ.2 w) k = value w

variable {covers value default} {read : τ → κ → β} {write : τ → α → τ}

theorem reflects_concat_iff (frame : ∀ t w k, ¬ covers w k → read (write t w) k = read t k)
    {writes : List α} {t : τ} {w : α} (reflects : Reflects covers value default read (writes, t)) :
    Reflects covers value default read (writes ++ [w], write t w) ↔
      Reaches covers value read write (writes, t) w := by
  refine forall_congr' fun k => ?_
  rw [lastWrite_concat]
  by_cases h : covers w k
  · simp only [h, if_true, true_imp_iff]
  · simp only [h, if_false, false_imp_iff, iff_true]
    exact (frame t w k h).trans (reflects k)

/-- A store that starts with the default everywhere reflects its writes throughout exactly the runs
in which each of them reaches its cells. -/
theorem always_iff_along (frame : ∀ t w k, ¬ covers w k → read (write t w) k = read t k)
    {start : τ} (init : ∀ k, read start k = default) (writes : List α) :
    StepRun.Always (step write) (Reflects covers value default read) ([], start) writes ↔
      StepRun.Along (step write) (Reaches covers value read write) ([], start) writes := by
  refine StepRun.always_iff_along (I := fun _ => True) trivial (fun _ _ _ _ _ => trivial) init
    (fun σ w σ' _ reflects reaches hstep => ?_) fun σ w _ reflects holds => ?_
  · obtain rfl := Option.some.inj hstep
    exact (reflects_concat_iff frame reflects).mpr reaches
  · exact (reflects_concat_iff frame reflects).mp (holds _ rfl)

end LastWrite
