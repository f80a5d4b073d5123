import EtherBuffer.Proofs.Egress.Credit
import EtherBuffer.Proofs.Egress.Steps
import Mathlib.Data.List.Induction

/-! Polling. A gate in between makes no difference to a later one, so that it does not matter how often
the next frame is asked for. -/
namespace EtherBuffer.Egress

open Link

namespace Shaper

variable {α : Type} {s : Shaper} {now later : UInt32}

/-- The highest credit that a gate leaves. -/
def ceiling (line : Line) (waits : Bool) : ℤ :=
  let top := if line.limit = 0 then 2 ^ 31 - 1 else min line.limit.toInt (2 ^ 31 - 1)
  if waits then top else min 0 top

/-- Of all bounds on the credit the least alone counts. -/
theorem gate_credit_eq_min (s : Shaper) (line : Line) (now : UInt32) (waiting : Option α) :
    (s.gate line now waiting).1.credit.toInt =
      min (ceiling line waiting.isSome) (s.credit.toInt + s.grant line now) := by
  unfold ceiling
  rw [gate_credit, toInt_creditAt]
  dsimp only
  split_ifs <;> omega

theorem gate_eq (s : Shaper) (line : Line) (now : UInt32) (waiting : Option α) :
    s.gate line now waiting =
      let credit := (s.gate line now waiting).1.credit
      (⟨credit, now⟩, if 0 ≤ credit then waiting else none) := by
  cases waiting with
  | none => exact Prod.ext rfl (ite_self none).symm
  | some frame => rfl

/-- Two intervals of time, one after the other, grant what both grant together. -/
theorem grant_add_grant (hle : now - s.updatedAt ≤ later - s.updatedAt) (line : Line)
    (credit : Int32) :
    s.grant line now + (Shaper.mk credit now).grant line later = s.grant line later := by
  have hsub : later - now = later - s.updatedAt - (now - s.updatedAt) := by grind
  have hnat : (later - now).toNat = (later - s.updatedAt).toNat - (now - s.updatedAt).toNat := by
    rw [hsub, UInt32.toNat_sub_of_le _ _ hle]
  unfold grant
  rw [hnat, ← Nat.add_mul, Nat.add_sub_cancel' (UInt32.le_iff_toNat_le.mp hle)]

/-- A gate leaves no trace in a later one, unless the timer has made a whole turn. -/
theorem gate_gate (hle : now - s.updatedAt ≤ later - s.updatedAt) (line : Line)
    (waiting : Option α) :
    (s.gate line now waiting).1.gate line later waiting = s.gate line later waiting := by
  have hcredit : ((s.gate line now waiting).1.gate line later waiting).1.credit =
      (s.gate line later waiting).1.credit := by
    have hsplit := grant_add_grant hle line (s.gate line now waiting).1.credit
    rw [← Int32.toInt_inj, gate_credit_eq_min, gate_credit_eq_min, gate_credit_eq_min, ← hsplit]
    have hshaper : (s.gate line now waiting).1 = ⟨(s.gate line now waiting).1.credit, now⟩ :=
      congrArg Prod.fst (s.gate_eq line now waiting)
    rw [← hshaper]
    push_cast
    omega
  rw [gate_eq, hcredit, ← gate_eq]

end Shaper

namespace Scheduler

variable {clients depth stamps : ℕ} {s : Scheduler clients depth stamps} {line : Line}
  {now later : UInt32}

theorem select_disabled (s : Scheduler clients depth stamps) (hl : line.shaperEnabled = false)
    (now : UInt32) :
    s.select line now = ({ s with armed := false }, s.peek .high <|> s.peek .low) := by
  unfold select
  rw [hl]
  rfl

theorem peek_rearmed (s : Scheduler clients depth stamps) (shaper : Shaper) (p : Priority) :
    Scheduler.peek { s with shaper, armed := true } p = s.peek p :=
  rfl

theorem select_select (h : s.armed = true ∨ line.shaperEnabled = false)
    (hle : now - s.shaper.updatedAt ≤ later - s.shaper.updatedAt) :
    (s.select line now).1.select line later = s.select line later := by
  cases hl : line.shaperEnabled with
  | false =>
    simp only [select_disabled _ hl]
    rfl
  | true =>
    have ha : s.armed = true := h.resolve_right (by simp [hl])
    have hgate := Shaper.gate_gate hle line (s.peek .high)
    simp only [select_eq _ hl, ha, if_true, peek_rearmed, hgate]

/-- A second selection at the same time repeats the first one. -/
theorem select_again (s : Scheduler clients depth stamps) (line : Line) (now : UInt32) :
    (s.select line now).1.select line now = s.select line now := by
  by_cases h : s.armed = true ∨ line.shaperEnabled = false
  · exact select_select h (UInt32.le_refl _)
  · -- The first selection arms the shaper.
    have hl : line.shaperEnabled = true := by simpa using (not_or.mp h).2
    have harm : s.select line now = (s.resetShaper now).select line now := by
      simp only [select_eq _ hl, if_neg (not_or.mp h).1]
      rfl
    rw [harm]
    exact select_select (.inl rfl) (UInt32.le_refl _)

/-- The last answer counts. -/
def poll (s : Scheduler clients depth stamps) (line : Line) (times : List UInt32) :
    Scheduler clients depth stamps × Option Selection :=
  times.foldl (fun r now => r.1.select line now) (s, none)

theorem poll_concat (s : Scheduler clients depth stamps) (line : Line) (times : List UInt32)
    (now : UInt32) :
    s.poll line (times ++ [now]) = (s.poll line times).1.select line now := by
  unfold poll
  rw [List.foldl_append]
  rfl

def timerAfter (s : Scheduler clients depth stamps) (ticks : ℕ) : UInt32 :=
  s.shaper.updatedAt + .ofNat ticks

theorem timerAfter_sub_le {t u : ℕ} (hle : t ≤ u) (hu : u < 2 ^ 32) :
    s.timerAfter t - s.shaper.updatedAt ≤ s.timerAfter u - s.shaper.updatedAt := by
  have hsub (ticks : ℕ) : s.timerAfter ticks - s.shaper.updatedAt = .ofNat ticks := by
    unfold timerAfter
    grind
  rw [hsub, hsub, UInt32.le_iff_toNat_le, UInt32.toNat_ofNat', UInt32.toNat_ofNat',
    Nat.mod_eq_of_lt (by omega), Nat.mod_eq_of_lt hu]
  exact hle

/-- Of several requests for the next frame only the last one counts, unless the timer makes a whole
turn. -/
theorem poll_eq_select (s : Scheduler clients depth stamps) (line : Line)
    (h : s.armed = true ∨ line.shaperEnabled = false) (ticks : List ℕ) (last : ℕ)
    (hsorted : (ticks ++ [last]).Pairwise (· ≤ ·)) (hlast : last < 2 ^ 32) :
    s.poll line ((ticks ++ [last]).map s.timerAfter) = s.select line (s.timerAfter last) ∧
      ∀ now, (s.select line now).1.select line now = s.select line now := by
  refine ⟨?_, fun now => s.select_again line now⟩
  -- Induction from the last reading but one, which leaves no trace in the last one.
  induction ticks using List.reverseRecOn generalizing last with
  | nil => rfl
  | append_singleton ticks t ih =>
    obtain ⟨hinit, -, hbefore⟩ := List.pairwise_append.mp hsorted
    have hle : t ≤ last := hbefore t (by simp) last (by simp)
    rw [List.map_append, List.map_singleton, poll_concat, ih t hinit (by omega)]
    exact select_select h (timerAfter_sub_le hle hlast)

/-- A debt is recovered while the timer wraps around. The frame is held back at the first times and goes
at the last one. -/
theorem poll_eq_select_recovering :
    let waiting : SlotQueue 1 := ⟨.replicate 1 (some ⟨.high, 0⟩), 0, 0⟩
    let s : Scheduler 1 1 1 :=
      { queues := ⟨.replicate 1 (.empty 1), .replicate 1 waiting⟩
        shaper := ⟨-9, 0xFFFFFFFD⟩
        armed := true }
    let line : Line := { shaperEnabled := true, slope := 1 }
    s.armed = true ∧ ([0, 2, 2, 5] ++ [9]).Pairwise (· ≤ ·) ∧
      ([0, 2, 2, 5] ++ [9]).map s.timerAfter =
        [0xFFFFFFFD, 0xFFFFFFFF, 0xFFFFFFFF, 2, 6] ∧
      (s.poll line [0xFFFFFFFD, 0xFFFFFFFF, 0xFFFFFFFF, 2]).2 = none ∧
      s.poll line [0xFFFFFFFD, 0xFFFFFFFF, 0xFFFFFFFF, 2, 6] = s.select line 6 ∧
      (s.select line 6).2 = some ⟨⟨.high, 0⟩, 0, 0⟩ ∧ (s.select line 6).1.shaper = ⟨0, 6⟩ ∧
      (s.select line 6).1.select line 6 = s.select line 6 := by
  intro waiting s line
  have hsorted : ([0, 2, 2, 5] ++ [9]).Pairwise (· ≤ ·) := by decide
  have htimes : ([0, 2, 2, 5] ++ [9]).map s.timerAfter =
      [0xFFFFFFFD, 0xFFFFFFFF, 0xFFFFFFFF, 2, 6] := by decide
  have hlast : s.timerAfter 9 = 6 := by decide
  obtain ⟨hpoll, hagain⟩ := s.poll_eq_select line (.inl rfl) [0, 2, 2, 5] 9 hsorted (by decide)
  rw [htimes, hlast] at hpoll
  exact ⟨rfl, hsorted, htimes, by decide, hpoll, by decide, by decide, hagain 6⟩

end Scheduler

end EtherBuffer.Egress
