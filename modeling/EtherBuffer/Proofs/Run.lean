import EtherBuffer.Fault
import Mathlib.Tactic.SplitIfs

/-! Runs of a system whose actions can fault. -/
namespace EtherBuffer

variable {σ α : Type}

inductive Run (allows : σ → α → Prop) (act : σ → α → Except Fault σ) (start : σ) : σ → Prop
  | start : Run allows act start start
  | step {x y : σ} (a : α) : Run allows act start x → allows x a → act x a = .ok y →
      Run allows act start y

def perform (allows : σ → α → Prop) [∀ x a, Decidable (allows x a)] (act : σ → α → Except Fault σ)
    (x : σ) : List α → Option σ
  | [] => some x
  | a :: as =>
    if allows x a then
      match act x a with
      | .ok y => perform allows act y as
      | .error _ => none
    else none

namespace Run

variable {allows : σ → α → Prop} {act : σ → α → Except Fault σ} {x y z : σ}

theorem trans (h : Run allows act x y) (h' : Run allows act y z) : Run allows act x z := by
  induction h' with
  | start => exact h
  | step a _ ha hs ih => exact ih.step a ha hs

theorem mono {allows' : σ → α → Prop} (h : Run allows act x y)
    (weaker : ∀ u a, allows u a → allows' u a) : Run allows' act x y := by
  induction h with
  | start => exact start
  | step a _ ha hs ih => exact ih.step a (weaker _ a ha) hs

theorem of_perform [∀ x a, Decidable (allows x a)] {as : List α}
    (h : perform allows act x as = some y) : Run allows act x y := by
  induction as generalizing x with
  | nil =>
    obtain rfl : x = y := Option.some.inj h
    exact start
  | cons a as ih =>
    rw [perform] at h
    split_ifs at h with ha
    cases hs : act x a with
    | error e => simp [hs] at h
    | ok z =>
      rw [hs] at h
      exact (start.step a ha hs).trans (ih h)

theorem invariant {P : σ → Prop} (h : Run allows act x y) (start : P x)
    (step : ∀ u a v, P u → allows u a → act u a = .ok v → P v) : P y := by
  induction h with
  | start => exact start
  | step a _ ha hs ih => exact step _ a _ ih ha hs

end Run

end EtherBuffer
