import EtherBuffer.Proofs.Egress.Credit

/-! The exact credit: what the shaper computes in words is the credit over the integers, clipped. -/
namespace EtherBuffer.Egress

open Link

namespace Shaper

variable {α : Type} {s : Shaper} {limit : Int32}

/-- The timer wraps around. -/
def elapsed (s : Shaper) (now : UInt32) : ℤ :=
  ((now.toNat : ℤ) - s.updatedAt.toNat) % 2 ^ 32

/-- The credit over the integers, up to the largest word and the limit of the line. -/
def exactCredit (s : Shaper) (line : Line) (now : UInt32) : ℤ :=
  let credit := min (2 ^ 31 - 1) (s.credit.toInt + s.elapsed now * line.slope.toNat)
  if line.limit = 0 then credit else min credit line.limit.toInt

/-- What is left after a frame, before it is clipped. -/
def exactRest (s : Shaper) (length : UInt32) : ℤ :=
  s.credit.toInt - (length.toNat + 24) * 8 * 2 ^ 16

theorem grant_eq (s : Shaper) (line : Line) (now : UInt32) :
    (s.grant line now : ℤ) = s.elapsed now * line.slope.toNat := by
  have := s.updatedAt.toNat_lt
  have := now.toNat_lt
  have helapsed : ((now - s.updatedAt).toNat : ℤ) = s.elapsed now := by
    unfold elapsed
    rw [UInt32.toNat_sub]
    omega
  rw [grant, Nat.cast_mul, helapsed]

/-- Saturation in 64-bit words leaves no trace in the credit. -/
theorem toInt_creditAt_eq_exact (s : Shaper) (line : Line) (now : UInt32) :
    (s.creditAt line now).toInt = s.exactCredit line now := by
  unfold exactCredit
  rw [toInt_creditAt, grant_eq]
  split_ifs
  · rfl
  · exact min_comm _ _

theorem gate_snd (s : Shaper) (line : Line) (now : UInt32) (waiting : Option α) :
    (s.gate line now waiting).2 = if 0 ≤ s.exactCredit line now then waiting else none := by
  rw [← toInt_creditAt_eq_exact]
  cases waiting with
  | none => exact (ite_self none).symm
  | some frame => exact if_congr Int32.le_iff_toInt_le rfl rfl

theorem gate_credit_exact (s : Shaper) (line : Line) (now : UInt32) (waiting : Option α) :
    (s.gate line now waiting).1.credit.toInt =
      if waiting.isSome then s.exactCredit line now else min (s.exactCredit line now) 0 := by
  rw [gate_credit, toInt_creditAt_eq_exact]
  split_ifs
  · rfl
  · exact min_comm _ _

section Words

/-! A payment is computed in 64-bit words that wrap around. -/

def costWord (length : UInt32) : Int64 :=
  (.ofNat length.toNat + .ofNat Frame.wireOverhead) * .ofNat byteCredit

def restWord (s : Shaper) (length : UInt32) : Int64 :=
  s.credit.toInt64 - costWord length

def spendWord (s : Shaper) (length : UInt32) : Int32 :=
  if s.restWord length < Int32.minValue.toInt64 then Int32.minValue
  else (s.restWord length).toInt32

theorem toInt_costWord (length : UInt32) :
    (costWord length).toInt = (length.toNat + 24) * 8 * 2 ^ 16 := by
  have hlength : (Int64.ofNat length.toNat).toInt = length.toNat :=
    Int64.toInt_ofNat_of_lt (by have := length.toNat_lt; omega)
  have hover : (Int64.ofNat Frame.wireOverhead).toInt = 24 := rfl
  have hcost : (Int64.ofNat byteCredit).toInt = 8 * 2 ^ 16 := rfl
  have := length.toNat_lt
  rw [costWord, Int64.toInt_mul, Int64.toInt_add, hlength, hover, hcost,
    Int.bmod_eq_of_le (n := _ + _) (by omega) (by omega), Int.bmod_eq_of_le (by omega) (by omega)]
  omega

/-- No payment leaves the range of 64 bits. -/
theorem toInt_restWord (s : Shaper) (length : UInt32) :
    (s.restWord length).toInt = s.exactRest length := by
  have := s.credit.le_toInt
  have := s.credit.toInt_lt
  have := length.toNat_lt
  rw [restWord, Int64.toInt_sub, Int32.toInt_toInt64, toInt_costWord, exactRest,
    Int.bmod_eq_of_le (by omega) (by omega)]

end Words

theorem toInt_spend_eq_exact (s : Shaper) (length : UInt32) :
    (s.spend length).credit.toInt = max (-2 ^ 31) (s.exactRest length) := by
  have hover : Frame.wireOverhead = 24 := rfl
  rw [toInt_spend_eq_max, exactRest, wireBits, hover]
  push_cast
  rfl

theorem spendWord_eq (s : Shaper) (length : UInt32) :
    s.spendWord length = (s.spend length).credit := by
  have hmin : Int32.minValue.toInt = -2 ^ 31 := rfl
  have hrest := s.toInt_restWord length
  have hle : s.exactRest length < 2 ^ 31 := by
    have := s.credit.toInt_lt
    unfold exactRest
    omega
  rw [← Int32.toInt_inj, toInt_spend_eq_exact, spendWord]
  split_ifs with hlow
  · rw [Int64.lt_iff_toInt_lt, Int32.toInt_toInt64, hmin, hrest] at hlow
    rw [hmin, max_eq_left hlow.le]
  · rw [Int64.lt_iff_toInt_lt, Int32.toInt_toInt64, hmin, hrest, not_lt] at hlow
    rw [Int64.toInt_toInt32, hrest, Int.bmod_eq_of_le (by omega) (by omega), max_eq_right hlow]

inductive Call (α : Type) where
  | gate (line : Line) (now : UInt32) (waiting : Option α)
  | spend (length : UInt32)
  | restart (now : UInt32)

def Call.Under (limit : Int32) : Call α → Prop
  | .gate line _ _ => line.limit = limit
  | .spend _ | .restart _ => True

def after (s : Shaper) : Call α → Shaper
  | .gate line now waiting => (s.gate line now waiting).1
  | .spend length => s.spend length
  | .restart now => .restart now

theorem after_credit_le (hs : s.credit.toInt ≤ limit.toInt) (hl : 0 < limit.toInt) {c : Call α}
    (hc : c.Under limit) : (s.after c).credit.toInt ≤ limit.toInt := by
  cases c with
  | gate line now waiting =>
    obtain rfl : line.limit = limit := hc
    have hne : line.limit ≠ 0 := by
      intro hzero
      rw [hzero] at hl
      exact lt_irrefl _ hl
    have hle := s.gate_credit_le line now waiting
    rw [toInt_creditAt_eq_exact, exactCredit, if_neg hne] at hle
    exact hle.trans (min_le_right _ _)
  | spend length =>
    change (s.spend length).credit.toInt ≤ _
    have := s.credit.le_toInt
    rw [toInt_spend_eq_exact, exactRest]
    omega
  | restart now => exact hl.le

theorem foldl_after_credit_le (hs : s.credit.toInt ≤ limit.toInt) (hl : 0 < limit.toInt)
    {calls : List (Call α)} (hc : ∀ c ∈ calls, c.Under limit) :
    (calls.foldl after s).credit.toInt ≤ limit.toInt := by
  induction calls generalizing s with
  | nil => exact hs
  | cons c calls ih =>
    exact ih (after_credit_le hs hl (hc c List.mem_cons_self))
      fun c' hc' => hc c' (List.mem_cons_of_mem c hc')

/-- Gates and payments leave the exact credit, clipped at the ends of the range and at a limit that is
never exceeded. -/
theorem credit_exact (s : Shaper) :
    (∀ (line : Line) (now : UInt32) (waiting : Option α),
      let c := s.exactCredit line now
      (s.gate line now waiting).2 = (if 0 ≤ c then waiting else none) ∧
        (s.gate line now waiting).1.credit.toInt = (if waiting.isSome then c else min c 0) ∧
        (s.gate line now waiting).1.updatedAt = now) ∧
    (∀ length : UInt32,
      (s.spend length).credit.toInt = max (-2 ^ 31) (s.exactRest length) ∧
        (s.spend length).updatedAt = s.updatedAt ∧
        -- Nothing wraps around on the way there.
        (costWord length).toInt = (length.toNat + 24) * 8 * 2 ^ 16 ∧
        (s.restWord length).toInt = s.exactRest length ∧
        s.spendWord length = (s.spend length).credit) ∧
    (s.credit = 0 → ∀ limit : Int32, 0 < limit → ∀ calls : List (Call α),
      (∀ c ∈ calls, c.Under limit) → (calls.foldl after s).credit ≤ limit) := by
  refine ⟨fun line now waiting => ?_, fun length => ?_, fun hs limit hl calls hcalls => ?_⟩
  · exact ⟨s.gate_snd line now waiting, s.gate_credit_exact line now waiting,
      s.gate_updatedAt line now waiting⟩
  · exact ⟨s.toInt_spend_eq_exact length, rfl, toInt_costWord length, s.toInt_restWord length,
      s.spendWord_eq length⟩
  · have hpos : 0 < limit.toInt := Int32.lt_iff_toInt_lt.mp hl
    refine Int32.le_iff_toInt_le.mpr (foldl_after_credit_le ?_ hpos hcalls)
    rw [hs]
    exact hpos.le

/-- One tick short of a whole turn of the timer, at the steepest slope, the credit leaves the range of
64 bits. -/
theorem credit_exact_saturated :
    let line : Line := { slope := 0xFFFFFFFF, limit := 7 }
    let calls : List (Call ℕ) := [.gate line 0 (some 5), .spend 0xFFFFFFFF, .gate line 1 none]
    let s : Shaper := ⟨0, 1⟩
    s.credit = 0 ∧ (0 : Int32) < 7 ∧ (∀ c ∈ calls, c.Under 7) ∧
      2 ^ 63 ≤ s.elapsed 0 * line.slope.toNat ∧ (s.gate line 0 (some 5)).2 = some 5 ∧
      (s.gate line 0 (some 5)).1.credit.toInt = 7 ∧
      s.exactRest 0xFFFFFFFF < -2 ^ 31 ∧ (s.spend 0xFFFFFFFF).credit.toInt = -2 ^ 31 ∧
      (calls.foldl after s).credit = 0 ∧ (calls.foldl after s).credit ≤ 7 := by
  intro line calls s
  obtain ⟨hgate, hspend, hrun⟩ := @credit_exact ℕ s
  obtain ⟨hadmitted, hcredit, -⟩ := hgate line 0 (some 5)
  have hexact : s.exactCredit line 0 = 7 := by decide
  have hunder : ∀ c ∈ calls, c.Under 7 := by simp [calls, Call.Under, line]
  rw [hexact] at hadmitted hcredit
  refine ⟨rfl, by decide, hunder, by decide, hadmitted, hcredit, by decide, ?_, by decide,
    hrun rfl 7 (by decide) calls hunder⟩
  rw [(hspend 0xFFFFFFFF).1]
  decide

end Shaper

end EtherBuffer.Egress
