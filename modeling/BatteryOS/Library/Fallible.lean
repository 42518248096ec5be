import Mathlib.Data.Option.Basic

/-! Calls that may raise. A call that raises leaves the state as it is by then, and a call that does
not come to an end has no outcome. What every part of a call may do to the state is what the whole
call may do. -/

universe u

/-- A call on a state, with its exceptions. -/
abbrev Fallible (ε σ α : Type u) := ExceptT ε (StateT σ Option) α

namespace Fallible

variable {ε σ α β γ : Type u}

def outcome (x : Fallible ε σ α) (s : σ) : Option (Except ε α × σ) := x.run.run s

def diverge : Fallible ε σ α := ExceptT.mk fun _ => none

def resume (f : α → Fallible ε σ β) : Except ε α × σ → Option (Except ε β × σ)
  | (.error e, s) => some (.error e, s)
  | (.ok a, s) => outcome (f a) s

theorem outcome_pure (a : α) (s : σ) :
    outcome (pure a : Fallible ε σ α) s = some (.ok a, s) := rfl

theorem outcome_throw (e : ε) (s : σ) :
    outcome (throw e : Fallible ε σ α) s = some (.error e, s) := rfl

theorem outcome_bind (x : Fallible ε σ α) (f : α → Fallible ε σ β) (s : σ) :
    outcome (x >>= f) s = (outcome x s).bind (resume f) := by
  change (x.run.run s).bind (fun p => (ExceptT.bindCont f p.1).run p.2) = _
  refine congrArg (x.run.run s).bind (funext fun p => ?_)
  obtain ⟨_ | a, s'⟩ := p <;> rfl

theorem outcome_bind_eq_some {x : Fallible ε σ α} {f : α → Fallible ε σ β} {s : σ}
    {p : Except ε β × σ} : outcome (x >>= f) s = some p ↔
      (∃ e t, outcome x s = some (.error e, t) ∧ p = (.error e, t)) ∨
        ∃ a t, outcome x s = some (.ok a, t) ∧ outcome (f a) t = some p := by
  rw [outcome_bind, Option.bind_eq_some_iff]
  constructor
  · rintro ⟨⟨_ | a, t⟩, first, rest⟩
    · exact .inl ⟨_, t, first, (Option.some.inj rest).symm⟩
    · exact .inr ⟨a, t, first, rest⟩
  · rintro (⟨e, t, first, rfl⟩ | ⟨a, t, first, rest⟩)
    · exact ⟨_, first, rfl⟩
    · exact ⟨_, first, rest⟩

theorem outcome_bind_eq_ok {x : Fallible ε σ α} {f : α → Fallible ε σ β} {s s' : σ} {b : β} :
    outcome (x >>= f) s = some (.ok b, s') ↔
      ∃ a t, outcome x s = some (.ok a, t) ∧ outcome (f a) t = some (.ok b, s') := by
  rw [outcome_bind_eq_some]
  refine or_iff_right ?_
  rintro ⟨e, t, -, same⟩
  cases same

theorem ends_bind {x : Fallible ε σ α} {f : α → Fallible ε σ β} {s : σ}
    (first : ∃ p, outcome x s = some p)
    (rest : ∀ a t, outcome x s = some (.ok a, t) → ∃ q, outcome (f a) t = some q) :
    ∃ q, outcome (x >>= f) s = some q := by
  obtain ⟨⟨_ | a, t⟩, run⟩ := first
  · exact ⟨_, outcome_bind_eq_some.mpr (.inl ⟨_, t, run, rfl⟩)⟩
  · obtain ⟨q, later⟩ := rest a t run
    exact ⟨q, outcome_bind_eq_some.mpr (.inr ⟨a, t, run, later⟩)⟩

theorem outcome_get_bind (f : σ → Fallible ε σ β) (s : σ) :
    outcome (get >>= f) s = outcome (f s) s := rfl

theorem outcome_modify (f : σ → σ) (s : σ) :
    outcome (modify f : Fallible ε σ PUnit) s = some (.ok ⟨⟩, f s) := rfl

theorem outcome_modify_bind (f : σ → σ) (g : PUnit → Fallible ε σ β) (s : σ) :
    outcome (modify f >>= g) s = outcome (g ⟨⟩) (f s) := rfl

/-- What the parts of a call may do to the states that they are made in. -/
structure Guard (σ : Type u) where
  holds : σ → Prop
  allows : σ → σ → Prop
  refl : ∀ s, allows s s
  trans : ∀ s t u, allows s t → allows t u → allows s u
  keeps : ∀ s t, holds s → allows s t → holds t

variable {total : Prop} {G H : Guard σ} {s : σ}

/-- In one state, the call does what is allowed and, where this is asked for, comes to an end. -/
def RunsAt (total : Prop) (G : Guard σ) (x : Fallible ε σ α) (s : σ) : Prop :=
  (total → ∃ p, outcome x s = some p) ∧ ∀ p, outcome x s = some p → G.allows s p.2

def Runs (total : Prop) (G : Guard σ) (x : Fallible ε σ α) : Prop :=
  ∀ s, G.holds s → RunsAt total G x s

theorem RunsAt.of_outcome {x : Fallible ε σ α} {p : Except ε α × σ} (h : outcome x s = some p)
    (allowed : G.allows s p.2) : RunsAt total G x s := by
  refine ⟨fun _ => ⟨p, h⟩, fun q hq => ?_⟩
  rw [h, Option.some_inj] at hq
  exact hq ▸ allowed

theorem RunsAt.bind {x : Fallible ε σ α} {f : α → Fallible ε σ β} (hs : G.holds s)
    (hx : RunsAt total G x s) (hf : ∀ a, Runs total G (f a)) : RunsAt total G (x >>= f) s := by
  have later (p : Except ε α × σ) (hp : outcome x s = some p) :
      (total → ∃ q, resume f p = some q) ∧
        ∀ q, resume f p = some q → G.allows s q.2 := by
    have first := hx.2 p hp
    obtain ⟨_ | a, s'⟩ := p
    · refine ⟨fun _ => ⟨_, rfl⟩, fun q hq => ?_⟩
      cases hq
      exact first
    · have rest := hf a s' (G.keeps s s' hs first)
      exact ⟨rest.1, fun q hq => G.trans s s' q.2 first (rest.2 q hq)⟩
  unfold RunsAt
  rw [outcome_bind]
  constructor
  · intro asked
    obtain ⟨p, hp⟩ := hx.1 asked
    obtain ⟨q, hq⟩ := (later p hp).1 asked
    exact ⟨q, by rw [hp, Option.bind_some, hq]⟩
  · intro q hq
    obtain ⟨p, hp, hq⟩ := Option.bind_eq_some_iff.mp hq
    exact (later p hp).2 q hq

theorem Runs.pure (a : α) : Runs total G (pure a : Fallible ε σ α) :=
  fun s _ => .of_outcome (outcome_pure a s) (G.refl s)

theorem Runs.throw (e : ε) : Runs total G (throw e : Fallible ε σ α) :=
  fun s _ => .of_outcome (outcome_throw e s) (G.refl s)

theorem Runs.diverge (partly : ¬ total) : Runs total G (diverge : Fallible ε σ α) :=
  fun _ _ => ⟨fun asked => absurd asked partly, fun _ h => by cases h⟩

theorem Runs.bind {x : Fallible ε σ α} {f : α → Fallible ε σ β} (hx : Runs total G x)
    (hf : ∀ a, Runs total G (f a)) : Runs total G (x >>= f) :=
  fun s hs => (hx s hs).bind hs hf

theorem Runs.get_bind {f : σ → Fallible ε σ β} (hf : ∀ s, G.holds s → RunsAt total G (f s) s) :
    Runs total G (get >>= f) := hf

theorem Runs.modify {f : σ → σ} (hf : ∀ s, G.holds s → G.allows s (f s)) :
    Runs total G (modify f : Fallible ε σ PUnit) :=
  fun s hs => .of_outcome (outcome_modify f s) (hf s hs)

theorem Runs.foldlM {f : β → α → Fallible ε σ β} {xs : List α}
    (hf : ∀ b, ∀ a ∈ xs, Runs total G (f b a)) (init : β) :
    Runs total G (xs.foldlM f init) := by
  induction xs generalizing init with
  | nil => exact Runs.pure init
  | cons a rest ih =>
      rw [List.foldlM_cons]
      exact Runs.bind (hf init a List.mem_cons_self) fun b =>
        ih (fun b a ha => hf b a (List.mem_cons_of_mem _ ha)) b

theorem Runs.forM {f : α → Fallible ε σ PUnit} {xs : List α}
    (hf : ∀ a ∈ xs, Runs total G (f a)) : Runs total G (forM xs f) := by
  induction xs with
  | nil => exact Runs.pure _
  | cons a rest ih =>
      rw [List.forM_cons]
      exact Runs.bind (hf a List.mem_cons_self) fun _ =>
        ih fun a ha => hf a (List.mem_cons_of_mem _ ha)

theorem forall_of_forM {f : α → Fallible ε σ PUnit} {xs : List α} {P : α → Prop} {s' : σ}
    (runs : ∀ a ∈ xs, Runs False G (f a))
    (each : ∀ a ∈ xs, ∀ s s', G.holds s → outcome (f a) s = some (.ok ⟨⟩, s') → P a)
    (hs : G.holds s) (run : outcome (forM xs f) s = some (.ok ⟨⟩, s')) : ∀ a ∈ xs, P a := by
  induction xs generalizing s with
  | nil => exact fun _ ha => by cases ha
  | cons a rest ih =>
      rw [List.forM_cons, outcome_bind_eq_ok] at run
      obtain ⟨_, t, first, later⟩ := run
      have ht : G.holds t := G.keeps s t hs ((runs a List.mem_cons_self s hs).2 _ first)
      refine List.forall_mem_cons.mpr ⟨each a List.mem_cons_self s t hs first, ?_⟩
      exact ih (fun b hb => runs b (List.mem_cons_of_mem _ hb))
        (fun b hb => each b (List.mem_cons_of_mem _ hb)) ht later

theorem Runs.mapM {f : α → Fallible ε σ β} {xs : List α}
    (hf : ∀ a ∈ xs, Runs total G (f a)) : Runs total G (xs.mapM f) := by
  induction xs with
  | nil => exact Runs.pure _
  | cons a rest ih =>
      rw [List.mapM_cons]
      exact Runs.bind (hf a List.mem_cons_self) fun _ =>
        Runs.bind (ih fun a ha => hf a (List.mem_cons_of_mem _ ha)) fun _ => Runs.pure _

end Fallible
