import EtherBuffer.Egress.Scheduler
import Mathlib.Tactic.Linarith

/-! The gap on a timer that wraps around. A wait is required only inside the gap, and is never longer
than the gap. -/
namespace EtherBuffer.Egress

/-! ### Quotients rounded up -/

theorem ceilDiv_le_iff {a b n : ℕ} (hb : 0 < b) : ceilDiv a b ≤ n ↔ a ≤ b * n := by
  rw [ceilDiv, Nat.div_le_iff_le_mul_add_pred hb]
  omega

theorem le_mul_ceilDiv (a : ℕ) {b : ℕ} (hb : 0 < b) : a ≤ b * ceilDiv a b :=
  (ceilDiv_le_iff hb).mp le_rfl

theorem mul_ceilDiv_lt (a : ℕ) {b : ℕ} (hb : 0 < b) : b * ceilDiv a b < a + b := by
  have := Nat.mul_div_le (a + b - 1) b
  unfold ceilDiv
  omega

theorem ceilDiv_pos {a b : ℕ} (ha : 0 < a) (hb : 0 < b) : 0 < ceilDiv a b := by
  have := ceilDiv_le_iff (a := a) (n := 0) hb
  omega

/-! ### Inside the gap -/

/-- If there is a wrap in the gap, the timer is behind the wrap. -/
structure InGap (lastEnd g now : UInt32) : Prop where
  begun : 0 < now - lastEnd
  in_time : now - lastEnd < g
  wrapped : lastEnd.toNat + g.toNat < UInt32.size ∨
    UInt32.size ≤ lastEnd.toNat + (now - lastEnd).toNat

variable {lastEnd g now : UInt32}

theorem inGap_iff : InGap lastEnd g now ↔
    0 < (now - lastEnd).toNat ∧ (now - lastEnd).toNat < g.toNat ∧
      (lastEnd.toNat + g.toNat < 2 ^ 32 ∨ 2 ^ 32 ≤ lastEnd.toNat + (now - lastEnd).toNat) :=
  ⟨fun ⟨h₁, h₂, h₃⟩ => ⟨h₁, h₂, h₃⟩, fun ⟨h₁, h₂, h₃⟩ => ⟨h₁, h₂, h₃⟩⟩

theorem waitRequired_iff (hg : 0 < g) :
    waitRequired lastEnd (lastEnd + g) now = true ↔ InGap lastEnd g now := by
  have hl := lastEnd.toNat_lt
  have hn := now.toNat_lt
  have hg' := g.toNat_lt
  rw [inGap_iff, waitRequired]
  simp only [UInt32.lt_iff_toNat_lt, UInt32.toNat_sub, UInt32.toNat_add, UInt32.toNat_zero] at hg ⊢
  split_ifs <;> simp only [Bool.and_eq_true, decide_eq_true_eq] <;> omega

theorem InGap.gap_pos (h : InGap lastEnd g now) : 0 < g := by
  have hlt := (inGap_iff.mp h).2.1
  rw [UInt32.lt_iff_toNat_lt, UInt32.toNat_zero]
  omega

theorem InGap.toNat_rest (h : InGap lastEnd g now) :
    (lastEnd + g - now).toNat + (now - lastEnd).toNat = g.toNat := by
  obtain ⟨-, hlt, -⟩ := inGap_iff.mp h
  have hl := lastEnd.toNat_lt
  have hn := now.toNat_lt
  have hg := g.toNat_lt
  rw [UInt32.toNat_sub] at hlt
  rw [UInt32.toNat_sub, UInt32.toNat_sub, UInt32.toNat_add]
  omega

theorem InGap.rest_lt (h : InGap lastEnd g now) : lastEnd + g - now < g := by
  have hrest := h.toNat_rest
  have hpos := (inGap_iff.mp h).1
  rw [UInt32.lt_iff_toNat_lt]
  omega

theorem InGap.rest_pos (h : InGap lastEnd g now) : 0 < lastEnd + g - now := by
  have hrest := h.toNat_rest
  have hlt := (inGap_iff.mp h).2.1
  rw [UInt32.lt_iff_toNat_lt, UInt32.toNat_zero]
  omega

theorem InGap.advance (h : InGap lastEnd g now) {a : ℕ} (ha : a < (lastEnd + g - now).toNat) :
    InGap lastEnd g (now + .ofNat a) ∧
      (lastEnd + g - (now + .ofNat a)).toNat = (lastEnd + g - now).toNat - a := by
  have hrest := h.toNat_rest
  obtain ⟨hpos, hlt, hwrap⟩ := inGap_iff.mp h
  have hg := g.toNat_lt
  have hl := lastEnd.toNat_lt
  have hn := now.toNat_lt
  have helapsed : (now + .ofNat a - lastEnd).toNat = (now - lastEnd).toNat + a := by
    have hsub := UInt32.toNat_sub now lastEnd
    rw [UInt32.toNat_sub (now + .ofNat a), UInt32.toNat_add, UInt32.toNat_ofNat']
    omega
  have hin : InGap lastEnd g (now + .ofNat a) := by
    rw [inGap_iff, helapsed]
    omega
  have hrest' := hin.toNat_rest
  exact ⟨hin, by omega⟩

/-- Behind the gap no wait is required, unless the timer comes round to it again. -/
theorem not_inGap_past {k : ℕ} (hk : g.toNat + k < 2 ^ 32) :
    ¬ InGap lastEnd g (lastEnd + g + .ofNat k) := by
  intro h
  have hlt := (inGap_iff.mp h).2.1
  have helapsed : (lastEnd + g + .ofNat k - lastEnd).toNat = g.toNat + k := by
    have hl := lastEnd.toNat_lt
    rw [UInt32.toNat_sub, UInt32.toNat_add, UInt32.toNat_add, UInt32.toNat_ofNat']
    omega
  omega

/-! ### The length of a gap -/

theorem bitsPerSecond_ge (speed : Link.Speed) : 10000000 ≤ speed.bitsPerSecond := by
  cases speed <;> decide

theorem toNat_gapTicks (speed : Link.Speed) (timerHz : UInt32) :
    (gapTicks speed timerHz).toNat =
      ceilDiv (Frame.gapBits * timerHz.toNat) speed.bitsPerSecond := by
  have hbits : Frame.gapBits = 96 := rfl
  have hspeed := bitsPerSecond_ge speed
  have hhz := timerHz.toNat_lt
  have hle : ceilDiv (Frame.gapBits * timerHz.toNat) speed.bitsPerSecond ≤ timerHz.toNat :=
    (ceilDiv_le_iff (by omega)).mpr (Nat.mul_le_mul_right _ (by omega))
  rw [gapTicks, UInt32.toNat_ofNat', Nat.mod_eq_of_lt (by omega)]

theorem gapTicks_pos (speed : Link.Speed) {timerHz : UInt32} (hz : 0 < timerHz) :
    0 < gapTicks speed timerHz := by
  have hspeed := bitsPerSecond_ge speed
  rw [UInt32.lt_iff_toNat_lt, toNat_gapTicks]
  exact ceilDiv_pos (Nat.mul_pos (by decide) hz) (by omega)

variable {clients depth stamps : ℕ}

/-- On all readings of the timer a wait is required exactly inside the gap, and it is shorter than the
gap. -/
theorem wait_within_gap :
    (∀ lastEnd g now : UInt32, 0 < g →
      (waitRequired lastEnd (lastEnd + g) now = true ↔
        0 < now - lastEnd ∧ now - lastEnd < g ∧ (lastEnd.toNat + g.toNat < UInt32.size ∨
          UInt32.size ≤ lastEnd.toNat + (now - lastEnd).toNat)) ∧
      (waitRequired lastEnd (lastEnd + g) now = true → lastEnd + g - now < g)) ∧
    ∀ (s : Scheduler clients depth stamps) (speed : Link.Speed) (timerHz now : UInt32),
      0 < timerHz →
        let g := gapTicks speed timerHz
        0 < g ∧ g.toNat = (96 * timerHz.toNat + speed.bitsPerSecond - 1) / speed.bitsPerSecond ∧
        (s.gapRequired speed timerHz now = true ↔
          0 < now - s.lastEnd ∧ now - s.lastEnd < g ∧
            (s.lastEnd.toNat + g.toNat < UInt32.size ∨
              UInt32.size ≤ s.lastEnd.toNat + (now - s.lastEnd).toNat)) ∧
        (s.gapRequired speed timerHz now = true → s.lastEnd + g - now < g) := by
  have hiff (lastEnd g now : UInt32) (hg : 0 < g) :
      (waitRequired lastEnd (lastEnd + g) now = true ↔
        0 < now - lastEnd ∧ now - lastEnd < g ∧ (lastEnd.toNat + g.toNat < UInt32.size ∨
          UInt32.size ≤ lastEnd.toNat + (now - lastEnd).toNat)) ∧
      (waitRequired lastEnd (lastEnd + g) now = true → lastEnd + g - now < g) :=
    ⟨(waitRequired_iff hg).trans inGap_iff, fun h => ((waitRequired_iff hg).mp h).rest_lt⟩
  refine ⟨hiff, fun s speed timerHz now hz => ?_⟩
  have hpos := gapTicks_pos speed hz
  exact ⟨hpos, toNat_gapTicks speed timerHz, hiff s.lastEnd _ now hpos⟩

/-- The gap goes over the wrap: no wait is required in front of it, and behind it one of 75 ticks. -/
theorem wait_within_gap_wrapped :
    let s : Scheduler 1 1 1 := { Scheduler.empty 1 1 1 with lastEnd := 0xFFFFFFF0 }
    s.gapRequired .mbps100 100000000 0xFFFFFFF8 = false ∧
      s.gapRequired .mbps100 100000000 5 = true ∧
      s.lastEnd + gapTicks .mbps100 100000000 - 5 = 75 ∧
      s.lastEnd + gapTicks .mbps100 100000000 - 5 < gapTicks .mbps100 100000000 ∧
      waitRequired 0xFFFFFFF0 (0xFFFFFFF0 + 16) 0xFFFFFFF8 = false := by
  intro s
  obtain ⟨hall, hgap⟩ := @wait_within_gap 1 1 1
  have hbefore := (hgap s .mbps100 100000000 0xFFFFFFF8 (by decide)).2.2.1
  obtain ⟨-, -, hbehind, hshort⟩ := hgap s .mbps100 100000000 5 (by decide)
  have hwait : s.gapRequired .mbps100 100000000 5 = true := hbehind.mpr (by decide)
  refine ⟨?_, hwait, by decide, hshort hwait, ?_⟩
  · exact Bool.eq_false_of_not_eq_true fun h => absurd (hbefore.mp h) (by decide)
  · have hends := (hall 0xFFFFFFF0 16 0xFFFFFFF8 (by decide)).1
    exact Bool.eq_false_of_not_eq_true fun h => absurd (hends.mp h) (by decide)

end EtherBuffer.Egress
