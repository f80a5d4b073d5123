import EtherBuffer.Egress.Shaper
import Mathlib.Tactic.Linarith

/-! The credit of the shaper over the integers, which is never more than what time has granted. -/
namespace EtherBuffer.Egress

open Link

theorem toInt32_ofIntClamp (x : ℤ) :
    (Int32.ofIntClamp x).toInt = max (-2 ^ 31) (min (2 ^ 31 - 1) x) := by
  have hmin : Int32.minValue.toInt = -2 ^ 31 := rfl
  have hmax : Int32.maxValue.toInt = 2 ^ 31 - 1 := rfl
  unfold Int32.ofIntClamp
  split_ifs with hl hr
  · rw [Int32.toInt_ofIntLE]
    omega
  · rw [hmax]
    omega
  · rw [hmin]
    omega

theorem toInt64_ofIntClamp (x : ℤ) :
    (Int64.ofIntClamp x).toInt = max (-2 ^ 63) (min (2 ^ 63 - 1) x) := by
  have hmin : Int64.minValue.toInt = -2 ^ 63 := rfl
  have hmax : Int64.maxValue.toInt = 2 ^ 63 - 1 := rfl
  unfold Int64.ofIntClamp
  split_ifs with hl hr
  · rw [Int64.toInt_ofIntLE]
    omega
  · rw [hmax]
    omega
  · rw [hmin]
    omega

/-- The timer wraps around, so that no more ticks are seen than passed. -/
theorem elapsed_le {t u : ℕ} (h : u ≤ t) : (UInt32.ofNat t - UInt32.ofNat u).toNat ≤ t - u := by
  rw [UInt32.toNat_sub, UInt32.toNat_ofNat', UInt32.toNat_ofNat']
  omega

namespace Shaper

variable {s : Shaper} {line : Line} {now : UInt32}

/-- What time has granted since the last update, without any bound. -/
def grant (s : Shaper) (line : Line) (now : UInt32) : ℕ :=
  (now - s.updatedAt).toNat * line.slope.toNat

theorem toInt_creditAt (s : Shaper) (line : Line) (now : UInt32) :
    (s.creditAt line now).toInt =
      if line.limit = 0 then min (2 ^ 31 - 1) (s.credit.toInt + s.grant line now)
      else min line.limit.toInt (min (2 ^ 31 - 1) (s.credit.toInt + s.grant line now)) := by
  have hmax : Int32.maxValue.toInt = 2 ^ 31 - 1 := rfl
  let credit := Int32.ofIntClamp (Int64.ofIntClamp (s.credit.toInt +
    (Int64.ofIntClamp (s.grant line now)).toInt)).toInt
  have hcredit : credit.toInt = min (2 ^ 31 - 1) (s.credit.toInt + s.grant line now) := by
    have := s.credit.le_toInt
    have := s.credit.toInt_le
    rw [toInt32_ofIntClamp, toInt64_ofIntClamp, toInt64_ofIntClamp]
    omega
  change (if line.limit ≠ 0 ∧ line.limit < credit then line.limit else credit).toInt = _
  rw [← hcredit]
  simp only [Int32.lt_iff_toInt_lt]
  by_cases hz : line.limit = 0
  · rw [if_neg fun h => h.1 hz, if_pos hz]
  · rw [if_neg hz]
    split_ifs with hlt
    · exact (min_eq_left hlt.2.le).symm
    · exact (min_eq_right (not_lt.mp fun h => hlt ⟨hz, h⟩)).symm

/-- Neither the bounds of the words nor the limit grant more than time does. -/
theorem toInt_creditAt_le (s : Shaper) (line : Line) (now : UInt32) :
    (s.creditAt line now).toInt ≤ s.credit.toInt + s.grant line now := by
  rw [toInt_creditAt]
  split_ifs <;> omega

theorem creditAt_nonneg (hs : 0 ≤ s.credit.toInt) (hl : 0 ≤ line.limit.toInt) :
    0 ≤ (s.creditAt line now).toInt := by
  rw [toInt_creditAt]
  split_ifs <;> omega

theorem limit_nonneg (h : 0 ≤ (s.creditAt line now).toInt) : 0 ≤ line.limit.toInt := by
  rw [toInt_creditAt] at h
  split_ifs at h with hz
  · rw [hz]
    exact le_rfl
  · omega

theorem gate_updatedAt {α : Type} (s : Shaper) (line : Line) (now : UInt32) (waiting : Option α) :
    (s.gate line now waiting).1.updatedAt = now := by
  cases waiting <;> rfl

theorem gate_credit {α : Type} (s : Shaper) (line : Line) (now : UInt32) (waiting : Option α) :
    (s.gate line now waiting).1.credit.toInt =
      if waiting.isSome then (s.creditAt line now).toInt
      else min 0 (s.creditAt line now).toInt := by
  cases waiting with
  | some frame => rfl
  | none =>
    change (if 0 < s.creditAt line now then 0 else s.creditAt line now).toInt =
      min 0 (s.creditAt line now).toInt
    simp only [Int32.lt_iff_toInt_lt]
    split_ifs with h
    · exact (min_eq_left (le_of_lt h)).symm
    · exact (min_eq_right (not_lt.mp h)).symm

theorem gate_credit_le {α : Type} (s : Shaper) (line : Line) (now : UInt32) (waiting : Option α) :
    (s.gate line now waiting).1.credit.toInt ≤ (s.creditAt line now).toInt := by
  rw [gate_credit]
  split_ifs <;> omega

theorem gate_credit_nonneg {α : Type} (h : 0 ≤ (s.creditAt line now).toInt) (waiting : Option α) :
    0 ≤ (s.gate line now waiting).1.credit.toInt := by
  rw [gate_credit]
  split_ifs <;> omega

theorem gate_admits {α : Type} {waiting : Option α} {frame : α}
    (h : (s.gate line now waiting).2 = some frame) : 0 ≤ (s.creditAt line now).toInt := by
  cases waiting with
  | none => cases h
  | some x =>
    change (if 0 ≤ s.creditAt line now then some x else none) = _ at h
    split_ifs at h with hc
    exact Int32.le_iff_toInt_le.mp hc

/-- With the overhead of the frame. -/
def wireBits (length : UInt32) : ℕ :=
  (length.toNat + Frame.wireOverhead) * 8

theorem toInt_spend_eq_max (s : Shaper) (length : UInt32) : (s.spend length).credit.toInt =
    max (-2 ^ 31) (s.credit.toInt - wireBits length * 2 ^ 16) := by
  have hcost : byteCredit = 8 * 2 ^ 16 := rfl
  have := s.credit.toInt_le
  have hmax : Int32.maxValue.toInt = 2 ^ 31 - 1 := rfl
  unfold spend wireBits
  rw [toInt32_ofIntClamp, hcost]
  push_cast
  omega

/-- A frame of a permitted length is paid in full from credit that is not negative. -/
theorem toInt_spend (hs : 0 ≤ s.credit.toInt) {length : UInt32}
    (hl : length.toNat ≤ Frame.maxTaggedSize) :
    (s.spend length).credit.toInt = s.credit.toInt - wireBits length * 2 ^ 16 := by
  have hsize : Frame.maxTaggedSize = 1522 := rfl
  have hover : Frame.wireOverhead = 24 := rfl
  rw [toInt_spend_eq_max, max_eq_right]
  unfold wireBits
  omega

/-- What was sent since `armedAt`, and the credit that is left, are covered by the slope. -/
def Covered (slope : UInt32) (armedAt now sentBits : ℕ) (s : Shaper) : Prop :=
  ∃ updated : ℕ, armedAt ≤ updated ∧ updated ≤ now ∧ s.updatedAt = .ofNat updated ∧
    s.credit.toInt + sentBits * 2 ^ 16 ≤ ((slope.toNat * (updated - armedAt) : ℕ) : ℤ)

namespace Covered

variable {slope : UInt32} {armedAt now sentBits : ℕ} {s : Shaper} {line : Line}

theorem restart (slope : UInt32) (now : ℕ) :
    (Shaper.restart (.ofNat now)).Covered slope now now 0 :=
  ⟨now, le_rfl, le_rfl, rfl, by simp [Shaper.restart]⟩

theorem later (h : s.Covered slope armedAt now sentBits) {t : ℕ} (ht : now ≤ t) :
    s.Covered slope armedAt t sentBits := by
  obtain ⟨updated, hle, hnow, hrest⟩ := h
  exact ⟨updated, hle, hnow.trans ht, hrest⟩

theorem gate {α : Type} (h : s.Covered slope armedAt now sentBits) (hl : line.slope = slope)
    (waiting : Option α) :
    (s.gate line (.ofNat now) waiting).1.Covered slope armedAt now sentBits := by
  obtain ⟨updated, hle, hnow, hu, hc⟩ := h
  refine ⟨now, hle.trans hnow, le_rfl, s.gate_updatedAt line _ waiting, ?_⟩
  have hgrant : s.grant line (.ofNat now) ≤ slope.toNat * (now - updated) := by
    unfold grant
    rw [hu, hl, Nat.mul_comm]
    exact Nat.mul_le_mul_left _ (elapsed_le hnow)
  have hsplit : slope.toNat * (now - armedAt) =
      slope.toNat * (updated - armedAt) + slope.toNat * (now - updated) := by
    rw [← Nat.mul_add]
    congr 1
    omega
  have hgate := s.gate_credit_le line (.ofNat now) waiting
  have hcredit := s.toInt_creditAt_le line (.ofNat now)
  rw [hsplit, Nat.cast_add]
  linarith [Int.ofNat_le.mpr hgrant]

theorem spend (h : s.Covered slope armedAt now sentBits) (hs : 0 ≤ s.credit.toInt)
    {length : UInt32} (hl : length.toNat ≤ Frame.maxTaggedSize) :
    (s.spend length).Covered slope armedAt now (sentBits + wireBits length) := by
  obtain ⟨updated, hle, hnow, hu, hc⟩ := h
  refine ⟨updated, hle, hnow, hu, ?_⟩
  rw [toInt_spend hs hl, Nat.cast_add]
  linarith

theorem sentBits_le (h : s.Covered slope armedAt now sentBits) (hs : 0 ≤ s.credit.toInt) :
    sentBits * 2 ^ 16 ≤ slope.toNat * (now - armedAt) := by
  obtain ⟨updated, -, hnow, -, hc⟩ := h
  have hupdated : sentBits * 2 ^ 16 ≤ slope.toNat * (updated - armedAt) := by
    zify at hc ⊢
    linarith
  exact hupdated.trans (Nat.mul_le_mul_left _ (Nat.sub_le_sub_right hnow _))

end Covered

end Shaper

end EtherBuffer.Egress
