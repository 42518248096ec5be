import Mathlib.Tactic.Ring

/-! A level that is drawn down at a rate, kept by noting the level at some time and the rate since.
The meter may be brought up to any time in between without a difference to what it reads later. -/

structure Meter (T K : Type*) where
  level : K
  since : T
  rate : K

namespace Meter

variable {T K : Type*} [CommRing K] (elapsed : T → T → K)

def read (m : Meter T K) (t : T) : K := m.level - m.rate * elapsed m.since t

def settle (m : Meter T K) (t : T) : Meter T K := ⟨m.read elapsed t, t, m.rate⟩

def switch (m : Meter T K) (t : T) (rate : K) : Meter T K := ⟨m.read elapsed t, t, rate⟩

inductive Step (T K : Type*)
  | settle (t : T)
  | switch (t : T) (rate : K)

def act (m : Meter T K) : Step T K → Meter T K
  | .settle t => m.settle elapsed t
  | .switch t rate => m.switch elapsed t rate

def Step.switched : Step T K → Option (T × K)
  | .settle _ => none
  | .switch t rate => some (t, rate)

/-- Each rate times the time that it was in force. -/
def drawn (since : T) (rate : K) : List (T × K) → T → K
  | [], t => rate * elapsed since t
  | (now, next) :: rest, t => rate * elapsed since now + drawn now next rest t

variable {elapsed} (additive : ∀ a b c, elapsed a b + elapsed b c = elapsed a c)
include additive

theorem drawn_resume (since now : T) (rate : K) (rates : List (T × K)) (t : T) :
    drawn elapsed since rate rates t =
      rate * elapsed since now + drawn elapsed now rate rates t := by
  cases rates with
  | nil => rw [drawn, drawn, ← additive since now t, mul_add]
  | cons first rest =>
      obtain ⟨next, rate'⟩ := first
      rw [drawn, drawn, ← additive since now next]
      ring

theorem read_foldl_act (m : Meter T K) (steps : List (Step T K)) (t : T) :
    (steps.foldl (act elapsed) m).read elapsed t =
      m.level - drawn elapsed m.since m.rate (steps.filterMap Step.switched) t := by
  induction steps generalizing m with
  | nil => rfl
  | cons step rest ih =>
      rw [List.foldl_cons, ih]
      cases step with
      | settle now =>
          rw [List.filterMap_cons_none rfl, drawn_resume additive m.since now, act, settle, read]
          ring
      | switch now rate =>
          have noted : (Step.switch now rate :: rest).filterMap Step.switched =
              (now, rate) :: rest.filterMap Step.switched := rfl
          rw [noted, drawn, act, switch, read]
          ring

end Meter
