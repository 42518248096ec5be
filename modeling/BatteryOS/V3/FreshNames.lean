import BatteryOS.V3.Manager

/-! The names of partition managers. They come from a counter, and the names of all other
batteries from the user: which names a run of calls has to leave free for the managers. -/

namespace BatteryOS.V3

namespace BatteryDirectoryManager

variable {m m' : BatteryDirectoryManager} {args : PartitionArgs} {name : String}

def ManagerFresh (m : BatteryDirectoryManager) : Prop :=
  m.getBattery m.createPartitionManagerName = none

section Directory

variable {d d' : BatteryDirectory} {pManager : String} {batteries free : List (String × ℕ)} {i : ℕ}

end Directory

theorem PartitionMade.nodup {kept : List (String × ℕ)} (made : PartitionMade m m' args kept) :
    (kept.map Prod.fst).Nodup := by
  have places : (kept.map Prod.snd).Nodup := by
    refine List.Nodup.sublist (made.isPrefix.sublist.map Prod.snd) ?_
    rw [partitionEntries_places]
    exact List.nodup_range'
  refine List.Nodup.map_on (fun q hq r hr same => ?_) (List.Nodup.of_map Prod.snd places)
  have first := (made.battery q.1 q.2).mpr (.inr (List.mem_cons_of_mem _ hq))
  have second := (made.battery r.1 r.2).mpr (.inr (List.mem_cons_of_mem _ hr))
  exact Prod.ext same (Option.some.inj (first.symm.trans (same ▸ second)))

theorem managerFresh_iff (next : m.createPartitionManagerName = name) :
    m.ManagerFresh ↔ ∀ i, m.getBattery name ≠ some i := by
  rw [ManagerFresh, next]
  exact Option.eq_none_iff_forall_ne_some

theorem ManagerFresh.nameExists (fresh : m.ManagerFresh) :
    m.directory.nameExists m.createPartitionManagerName ≠ true := by
  intro taken
  obtain ⟨i, stored⟩ := BatteryDirectory.nameExists_iff.mp taken
  exact (managerFresh_iff rfl).mp fresh i stored

section SameCounter

variable (fresh : m.ManagerFresh) (counter : m'.pManagerCounter = m.pManagerCounter)

include counter in
theorem createPartitionManagerName_of_counter :
    m'.createPartitionManagerName = m.createPartitionManagerName := by
  simp only [createPartitionManagerName, counter]

include fresh counter in
theorem BatteryMade.managerFresh_iff (made : BatteryMade m m' name) :
    m'.ManagerFresh ↔ name ≠ m.createPartitionManagerName := by
  rw [BatteryDirectoryManager.managerFresh_iff (createPartitionManagerName_of_counter counter)]
  constructor
  · rintro fresh' rfl
    exact fresh' _ ((made.battery _ _).mpr (.inr ⟨rfl, rfl⟩))
  · intro ne i stored
    rcases (made.battery _ i).mp stored with before | ⟨same, -⟩
    · exact (BatteryDirectoryManager.managerFresh_iff rfl).mp fresh i before
    · exact ne same.symm

end SameCounter

end BatteryDirectoryManager

end BatteryOS.V3
