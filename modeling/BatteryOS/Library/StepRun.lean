import Mathlib.Data.List.Basic
import Mathlib.Data.List.Induction
import Mathlib.Data.Option.Basic

/-! Runs of a partial step function over a list of actions. What holds in every state that a run
passes is proved from one step; where some actions break it, the runs in which it always holds
are those in which no such action is taken. -/

namespace StepRun

variable {σ α : Type*} (step : σ → α → Option σ)

/-- The state after all actions; `none` when one of them is not possible. -/
def exec (start : σ) (actions : List α) : Option σ := actions.foldlM step start

def Always (P : σ → Prop) (start : σ) (actions : List α) : Prop :=
  ∀ before, before <+: actions → ∀ s, exec step start before = some s → P s

def Along (P : σ → α → Prop) (start : σ) (actions : List α) : Prop :=
  ∀ before action, before ++ [action] <+: actions → ∀ s, exec step start before = some s →
    P s action

variable {step} {start s : σ} {actions before after : List α} {action : α}

theorem exec_append : exec step start (before ++ after) =
    (exec step start before).bind fun s => exec step s after :=
  List.foldlM_append ..

theorem exec_singleton : exec step start [action] = step start action := by
  rw [exec, List.foldlM_cons]
  cases step start action <;> rfl

theorem exec_concat : exec step start (before ++ [action]) =
    (exec step start before).bind fun s => step s action := by
  simp only [exec_append, exec_singleton]

theorem Along.of_prefix {P : σ → α → Prop} (h : Along step P start actions)
    (isPrefix : before <+: actions) : Along step P start before :=
  fun b action h' => h b action (h'.trans isPrefix)

theorem along_of_forall {P : α → Prop} (h : ∀ action ∈ actions, P action) :
    Along step (fun _ => P) start actions :=
  fun _ action isPrefix _ _ => h action (isPrefix.subset (by simp))

theorem along_nil {P : σ → α → Prop} : Along step P start [] := by
  intro before action isPrefix
  cases before <;> simp at isPrefix

theorem along_cons {P : σ → α → Prop} : Along step P start (action :: actions) ↔
    P start action ∧ ∀ s, step start action = some s → Along step P s actions := by
  constructor
  · intro along
    refine ⟨along [] action (by simp) start rfl, fun s hstep before later isPrefix t run => ?_⟩
    refine along (action :: before) later (List.cons_prefix_cons.mpr ⟨rfl, isPrefix⟩) t ?_
    rw [exec, List.foldlM_cons, hstep]
    exact run
  · rintro ⟨first, rest⟩ before later isPrefix t run
    cases before with
    | nil =>
        obtain rfl := Option.some.inj run
        obtain rfl := (List.cons_prefix_cons.mp isPrefix).1
        exact first
    | cons a before =>
        obtain ⟨rfl, rest_prefix⟩ := List.cons_prefix_cons.mp isPrefix
        rw [exec, List.foldlM_cons] at run
        obtain ⟨s, hstep, run⟩ := Option.bind_eq_some_iff.mp run
        exact rest s hstep before later rest_prefix t run

instance decidableAlong {P : σ → α → Prop} [∀ s action, Decidable (P s action)] :
    ∀ start actions, Decidable (Along step P start actions)
  | _, [] => .isTrue along_nil
  | start, action :: actions =>
    match h : step start action with
    | none => decidable_of_iff (P start action) (by simp [along_cons, h])
    | some s =>
      have := decidableAlong (P := P) s actions
      decidable_of_iff (P start action ∧ Along step P s actions) (by simp [along_cons, h])

theorem exec_invariant {Q : σ → Prop} {P : σ → α → Prop} (init : Q start)
    (keep : ∀ s action s', Q s → P s action → step s action = some s' → Q s')
    (along : Along step P start actions) (run : exec step start actions = some s) : Q s := by
  induction actions using List.reverseRecOn generalizing s with
  | nil =>
      obtain rfl := Option.some.inj run
      exact init
  | append_singleton before action ih =>
      rw [exec_concat, Option.bind_eq_some_iff] at run
      obtain ⟨s', first, last⟩ := run
      exact keep s' action s (ih (along.of_prefix (List.prefix_append _ _)) first)
        (along before action (List.prefix_refl _) s' first) last

theorem exec_kept {Q : σ → Prop} (init : Q start)
    (keep : ∀ s action s', Q s → step s action = some s' → Q s')
    (run : exec step start actions = some s) : Q s :=
  exec_invariant (P := fun _ _ => True) init (fun s action s' h _ => keep s action s' h)
    (fun _ _ _ _ _ => trivial) run

theorem always_of_along {Q : σ → Prop} {P : σ → α → Prop} (init : Q start)
    (keep : ∀ s action s', Q s → P s action → step s action = some s' → Q s')
    (along : Along step P start actions) : Always step Q start actions :=
  fun _ isPrefix _ run => exec_invariant init keep (along.of_prefix isPrefix) run

theorem along_congr {I : σ → Prop} {P Q : σ → α → Prop} (init : I start)
    (keep : ∀ s action s', I s → step s action = some s' → I s')
    (iff : ∀ s action, I s → (P s action ↔ Q s action)) :
    Along step P start actions ↔ Along step Q start actions :=
  forall₄_congr fun _ action _ s => forall_congr' fun run =>
    iff s action (exec_kept init keep run)

theorem always_iff_along {I Q : σ → Prop} {P : σ → α → Prop} (init : I start)
    (keep : ∀ s action s', I s → step s action = some s' → I s') (start_holds : Q start)
    (preserves : ∀ s action s', I s → Q s → P s action → step s action = some s' → Q s')
    (exact_at : ∀ s action, I s → Q s → (∀ s', step s action = some s' → Q s') → P s action) :
    Always step Q start actions ↔ Along step P start actions := by
  have invariant {xs : List α} {s : σ} (run : exec step start xs = some s) : I s :=
    exec_kept init keep run
  constructor
  · intro always before action isPrefix s run
    refine exact_at s action (invariant run)
      (always before ((List.prefix_append _ _).trans isPrefix) s run) fun s' hstep => ?_
    exact always _ isPrefix s' (by rw [exec_concat, run, Option.bind_some, hstep])
  · intro along
    have both : Always step (fun s => I s ∧ Q s) start actions :=
      always_of_along ⟨init, start_holds⟩
        (fun s action s' h hp hstep =>
          ⟨keep s action s' h.1 hstep, preserves s action s' h.1 h.2 hp hstep⟩) along
    exact fun before isPrefix s run => (both before isPrefix s run).2

theorem always_iff_start_and_along {I Q : σ → Prop} {P : σ → α → Prop} (init : I start)
    (keep : ∀ s action s', I s → step s action = some s' → I s')
    (preserves : ∀ s action s', I s → Q s → P s action → step s action = some s' → Q s')
    (exact_at : ∀ s action, I s → Q s → (∀ s', step s action = some s' → Q s') → P s action) :
    Always step Q start actions ↔ Q start ∧ Along step P start actions := by
  by_cases start_holds : Q start
  · rw [and_iff_right start_holds]
    exact always_iff_along init keep start_holds preserves exact_at
  · refine iff_of_false (fun always => start_holds ?_) fun h => start_holds h.1
    exact always [] List.nil_prefix start rfl

theorem always_iff_along_of_exec {I Q : σ → Prop} {P : σ → α → Prop} (init : I start)
    (keep : ∀ s action s', I s → step s action = some s' → I s') (start_holds : Q start)
    (iff : ∀ s action s', I s → Q s → step s action = some s' → (Q s' ↔ P s action))
    (run : exec step start actions = some s) :
    Always step Q start actions ↔ Along step P start actions := by
  have possible : Always step Q start actions ↔
      Along step (fun s action => ∀ s', step s action = some s' → P s action) start actions :=
    always_iff_along init keep start_holds
      (fun s action s' hi hq hp hstep => (iff s action s' hi hq hstep).mpr (hp s' hstep))
      (fun s action hi hq holds s' hstep => (iff s action s' hi hq hstep).mp (holds s' hstep))
  rw [possible]
  refine ⟨fun along before action isPrefix s' first => ?_,
    fun along before action isPrefix s' first _ _ => along before action isPrefix s' first⟩
  obtain ⟨after, split⟩ := isPrefix
  rw [← split, exec_append, exec_concat, first, Option.bind_some, Option.bind_eq_some_iff] at run
  obtain ⟨next, hstep, -⟩ := run
  exact along before action ⟨after, split⟩ s' first next hstep

end StepRun
