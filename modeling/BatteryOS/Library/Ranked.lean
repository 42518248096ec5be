import Mathlib.Data.List.Basic
import Mathlib.Logic.Relation
import Mathlib.Order.Lattice

/-! Graphs that grow at their ends. A rank that rises along every edge shows that there is no
cycle, and it can be continued to nodes that are new, as long as edges lead to new nodes only. -/

def Ranked {α : Type*} (edge : α → α → Prop) : Prop :=
  ∃ rank : α → ℕ, ∀ a b, edge a b → rank a < rank b

namespace Ranked

variable {α : Type*} {edge edge' : α → α → Prop}

theorem acyclic (h : Ranked edge) (a : α) : ¬ Relation.TransGen edge a a := by
  obtain ⟨rank, rises⟩ := h
  intro cycle
  have later : ∀ b, Relation.TransGen edge a b → rank a < rank b := by
    intro b path
    induction path with
    | single step => exact rises _ _ step
    | tail _ step ih => exact ih.trans (rises _ _ step)
  exact lt_irrefl _ (later a cycle)

theorem exists_bound (rank : α → ℕ) (sources : List α) : ∃ n, ∀ a ∈ sources, rank a < n := by
  induction sources with
  | nil => exact ⟨0, fun a ha => (by cases ha)⟩
  | cons first rest ih =>
      obtain ⟨n, bound⟩ := ih
      refine ⟨max n (rank first + 1), fun a ha => ?_⟩
      rcases List.mem_cons.mp ha with rfl | ha
      · exact lt_of_lt_of_le (Nat.lt_succ_self _) (le_max_right _ _)
      · exact lt_of_lt_of_le (bound a ha) (le_max_left _ _)

theorem extend (h : Ranked edge) (news : α → Prop) (sources : List α)
    (fresh : ∀ a b, edge a b → ¬ news a ∧ ¬ news b) (apart : ∀ a ∈ sources, ¬ news a)
    (edges : ∀ a b, edge' a b → edge a b ∨ news b ∧ a ∈ sources) : Ranked edge' := by
  classical
  obtain ⟨rank, rises⟩ := h
  obtain ⟨n, bound⟩ := exists_bound rank sources
  refine ⟨fun a => if news a then n else rank a, fun a b step => ?_⟩
  rcases edges a b step with old | ⟨new, source⟩
  · obtain ⟨ha, hb⟩ := fresh a b old
    simpa [ha, hb] using rises a b old
  · simpa [new, apart a source] using bound a source

end Ranked

/-- In a list of rows, a name feeds those whose rows refer to it. -/
def Feeds {κ : Type*} (rows : List (κ × List κ)) (a b : κ) : Prop :=
  ∃ sources, (b, sources) ∈ rows ∧ a ∈ sources

def Grounded {κ : Type*} (rows : List (κ × List κ)) : Prop :=
  ∀ before name sources after, rows = before ++ (name, sources) :: after →
    ∀ a ∈ sources, a ∈ before.map Prod.fst

namespace Grounded

variable {κ : Type*} {rows : List (κ × List κ)} {name a b : κ} {sources : List κ}

theorem nil : Grounded ([] : List (κ × List κ)) := by
  intro before name sources after split
  simp at split

theorem concat : Grounded (rows ++ [(name, sources)]) ↔
    Grounded rows ∧ ∀ a ∈ sources, a ∈ rows.map Prod.fst := by
  constructor
  · intro h
    refine ⟨fun before name' sources' after split => ?_, h rows name sources [] rfl⟩
    refine h before name' sources' (after ++ [(name, sources)]) ?_
    rw [split, List.append_assoc, List.cons_append]
  · rintro ⟨h, last⟩ before name' sources' after split
    rcases List.eq_nil_or_concat after with rfl | ⟨rest, row, rfl⟩
    · obtain ⟨rfl, same⟩ := List.append_inj' split rfl
      cases same
      exact last
    · rw [List.concat_eq_append, ← List.cons_append, ← List.append_assoc] at split
      exact h before name' sources' rest (List.append_inj_left' split rfl)

theorem mem_keys (h : Grounded rows) (feeds : Feeds rows a b) : a ∈ rows.map Prod.fst := by
  obtain ⟨sources, row, source⟩ := feeds
  obtain ⟨before, after, split⟩ := List.append_of_mem row
  rw [split, List.map_append]
  exact List.mem_append_left _ (h before b sources after split a source)

theorem idxOf_lt [DecidableEq κ] (h : Grounded rows) (nodup : (rows.map Prod.fst).Nodup)
    (feeds : Feeds rows a b) : (rows.map Prod.fst).idxOf a < (rows.map Prod.fst).idxOf b := by
  obtain ⟨sources, row, source⟩ := feeds
  obtain ⟨before, after, split⟩ := List.append_of_mem row
  have earlier := h before b sources after split a source
  rw [split, List.map_append, List.map_cons] at nodup ⊢
  have fresh : b ∉ before.map Prod.fst := fun old =>
    (List.nodup_append.mp nodup).2.2 b old b List.mem_cons_self rfl
  rw [List.idxOf_append_of_mem earlier, List.idxOf_append_of_notMem fresh, List.idxOf_cons_self]
  exact Nat.lt_of_lt_of_le (List.idxOf_lt_length_of_mem earlier) (Nat.le_add_right _ _)

theorem ranked (h : Grounded rows) (nodup : (rows.map Prod.fst).Nodup) : Ranked (Feeds rows) := by
  classical
  exact ⟨fun a => (rows.map Prod.fst).idxOf a, fun _ _ feeds => h.idxOf_lt nodup feeds⟩

end Grounded
