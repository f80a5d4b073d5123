import EtherBuffer.Proofs.Filter.Collision
import EtherBuffer.Proofs.Filter.Linearity
import Mathlib.Data.UInt
import Mathlib.Tactic.LinearCombination
import Mathlib.Tactic.Ring

/-! Which keys a change of polynomial parts: all but those with one fold. The difference of two others
stays odd under some polynomial. -/
namespace EtherBuffer.Filter

/-! ### The order of the polynomials -/

section
open scoped UInt32.CommRing

/-- As many steps as a power of two add this power, and multiples of greater ones. -/
theorem nextPoly_iterate_two_pow (k : ℕ) : ∃ s t : UInt32, ∀ x,
    nextPoly^[2 ^ k] x = x + 2 ^ k + 2 ^ (k + 1) * (s + 2 * t * x) := by
  induction k with
  | zero =>
    refine ⟨506952111, 416131, fun x => ?_⟩
    have ha : (1664525 : UInt32) = 1 + 4 * 416131 := by decide
    have hc : (1013904223 : UInt32) = 1 + 2 * 506952111 := by decide
    change 1664525 * x + 1013904223 = _
    rw [ha, hc]
    ring
  | succ k ih =>
    obtain ⟨s, t, h⟩ := ih
    refine ⟨s + 2 ^ k * t * (1 + 2 * s), t + 2 ^ (k + 1) * t * t, fun x => ?_⟩
    rw [pow_succ, mul_two, Function.iterate_add_apply, h, h]
    ring

theorem eq_two_mul_or (x : UInt32) : ∃ y, x = 2 * y ∨ x = 2 * y + 1 := by
  obtain ⟨i, hi⟩ := Nat.even_or_odd' x.toNat
  refine ⟨.ofNat i, ?_⟩
  rw [← UInt32.ofNat_toNat (x := x)]
  rcases hi with hi | hi
  · rw [hi, UInt32.ofNat_mul]
    exact .inl rfl
  · rw [hi, UInt32.ofNat_add, UInt32.ofNat_mul]
    exact .inr rfl

/-- Filling anew leads to words that agree with any other one in as many low bits as one likes. -/
theorem exists_iterate_nextPoly_add (k : ℕ) (x y : UInt32) :
    ∃ j m, y = nextPoly^[j] x + 2 ^ k * m := by
  induction k with
  | zero => exact ⟨0, y - x, by simp⟩
  | succ k ih =>
    obtain ⟨j, m, h⟩ := ih
    obtain ⟨m', rfl | rfl⟩ := eq_two_mul_or m
    · exact ⟨j, m', by rw [h]; ring⟩
    · obtain ⟨s, t, hstep⟩ := nextPoly_iterate_two_pow k
      refine ⟨2 ^ k + j, m' - s - 2 * t * nextPoly^[j] x, ?_⟩
      rw [Function.iterate_add_apply, hstep]
      linear_combination h

end

theorem exists_iterate_nextPoly (x y : UInt32) : ∃ j, nextPoly^[j] x = y := by
  obtain ⟨j, m, h⟩ := exists_iterate_nextPoly_add 32 x y
  have hzero : (2 : UInt32) ^ 32 = 0 := by decide +kernel
  rw [hzero, UInt32.zero_mul, UInt32.add_zero] at h
  exact ⟨j, h.symm⟩

/-! ### A difference that stays odd -/

theorem shiftBits_add (poly : UInt32) (i j : ℕ) (x : UInt32) :
    shiftBits poly (i + j) x = shiftBits poly j (shiftBits poly i x) := by
  induction i generalizing x with
  | zero => rw [Nat.zero_add]; rfl
  | succ i ih =>
    rw [Nat.add_right_comm]
    exact ih _

theorem hash_eq_shiftBits (poly : UInt32) (k : Key) : hash poly k = shiftBits poly 64 k.fold := by
  rw [shiftBits_add poly 32 32]
  unfold hash foldWord
  rw [UInt32.xor_zero]
  rfl

theorem fold_xor (k l : Key) : (k ^^^ l).fold = k.fold ^^^ l.fold :=
  xor_xor_xor_comm k.low l.low k.high l.high

/-- The zeros at the low end of a word are shifted out under any polynomial. -/
theorem exists_shiftBits_odd {m : ℕ} {w : UInt32} (hw : w ≠ 0) (hm : w.toNat < 2 ^ m) :
    ∃ j < m, ∃ u : UInt32, u.toNat % 2 = 1 ∧ ∀ poly, shiftBits poly j w = u := by
  -- A word that is even is halved.
  induction m generalizing w with
  | zero => exact absurd (UInt32.toNat_inj.mp (Nat.lt_one_iff.mp hm)) hw
  | succ m ih =>
    rcases Nat.mod_two_eq_zero_or_one w.toNat with heven | hodd
    · have hhalf : (w >>> 1).toNat = w.toNat / 2 := by
        rw [UInt32.toNat_shiftRight]
        rfl
      have hne : w >>> 1 ≠ 0 := by
        intro hzero
        have hpos : w.toNat ≠ 0 := fun h => hw (UInt32.toNat_inj.mp h)
        have hsmall : w.toNat / 2 = 0 := hhalf.symm.trans (congrArg UInt32.toNat hzero)
        omega
      obtain ⟨j, hj, u, hu, hshift⟩ := ih hne (by rw [hhalf]; omega)
      refine ⟨j + 1, Nat.succ_lt_succ hj, u, hu, fun poly => ?_⟩
      have hstep : shiftBit poly w = w >>> 1 := by
        rw [shiftBit_eq, if_pos heven, UInt32.xor_zero]
      rw [shiftBits, hstep]
      exact hshift poly
    · exact ⟨0, Nat.succ_pos m, w, hodd, fun poly => rfl⟩

/-- The polynomial under which an odd word stays as it is. -/
def steadyPoly (u : UInt32) : UInt32 :=
  u ^^^ (u >>> 1)

theorem shiftBits_steadyPoly {u : UInt32} (hu : u.toNat % 2 = 1) (n : ℕ) :
    shiftBits (steadyPoly u) n u = u := by
  have hstep : shiftBit (steadyPoly u) u = u := by
    rw [shiftBit_eq, if_neg (by omega), steadyPoly, UInt32.xor_comm u, ← UInt32.xor_assoc,
      UInt32.xor_self, UInt32.zero_xor]
  induction n with
  | zero => rfl
  | succ n ih => rw [shiftBits, hstep, ih]

theorem exists_shiftBits_steady {w : UInt32} (hw : w ≠ 0) :
    ∃ poly, (shiftBits poly 64 w).toNat % 2 = 1 := by
  obtain ⟨j, hj, u, hu, hshift⟩ := exists_shiftBits_odd hw w.toNat_lt
  refine ⟨steadyPoly u, ?_⟩
  rw [show 64 = j + (64 - j) by omega, shiftBits_add, hshift, shiftBits_steadyPoly hu, hu]

/-! ### Keys -/

variable {k l : Key} {poly : UInt32}

theorem hash_eq_of_fold (h : k.fold = l.fold) (poly : UInt32) : hash poly k = hash poly l := by
  rw [hash_eq_shiftBits, hash_eq_shiftBits, h]

/-- Keys with different folds differ in the low bit of their hashes under some polynomial. -/
theorem exists_hash_xor_odd (h : k.fold ≠ l.fold) :
    ∃ poly, (hash poly (k ^^^ l)).toNat % 2 = 1 := by
  have hne : (k ^^^ l).fold ≠ 0 := by
    rw [fold_xor, ne_eq, UInt32.xor_eq_zero_iff]
    exact h
  simp only [hash_eq_shiftBits]
  exact exists_shiftBits_steady hne

theorem hash_ne_of_odd (h : (hash poly (k ^^^ l)).toNat % 2 = 1) : hash poly k ≠ hash poly l := by
  intro he
  rw [hash_xor, he, UInt32.xor_self] at h
  cases h

theorem slotIndex_ne_of_odd {n : ℕ} [Positive n] (hn : n.isPowerOfTwo) (h1 : 1 < n)
    (h : (hash poly (k ^^^ l)).toNat % 2 = 1) : slotIndex n poly k ≠ slotIndex n poly l := by
  have ⟨d, hd⟩ := hn
  have heven : 2 ∣ n := by
    rw [hd]
    exact dvd_pow_self 2 (by rintro rfl; omega)
  rw [ne_eq, slotIndex_eq_iff hn, Fin.ext_iff, val_slotIndex]
  intro hzero
  change _ % n = 0 at hzero
  have := Nat.mod_mod_of_dvd (hash poly (k ^^^ l)).toNat heven
  omega

/-- Some polynomial gives two keys different hashes exactly if their folds differ, and filling anew
comes to one that parts their slots. -/
theorem separated_iff (k l : Key) :
    ((∃ poly, hash poly k ≠ hash poly l) ↔ k.fold ≠ l.fold) ∧
      (k.fold ≠ l.fold → ∀ start, ∃ j,
        hash (nextPoly^[j + 1] start) k ≠ hash (nextPoly^[j + 1] start) l ∧
          ∀ (n : ℕ) [Positive n], n.isPowerOfTwo → 1 < n →
            slotIndex n (nextPoly^[j + 1] start) k ≠ slotIndex n (nextPoly^[j + 1] start) l) := by
  refine ⟨⟨fun ⟨poly, hne⟩ h => hne (hash_eq_of_fold h poly), fun h => ?_⟩, fun h start => ?_⟩
  · obtain ⟨poly, hodd⟩ := exists_hash_xor_odd h
    exact ⟨poly, hash_ne_of_odd hodd⟩
  · obtain ⟨poly, hodd⟩ := exists_hash_xor_odd h
    obtain ⟨j, hj⟩ := exists_iterate_nextPoly (nextPoly start) poly
    rw [← Function.iterate_succ_apply] at hj
    refine ⟨j, ?_, fun n _ hn h1 => ?_⟩
    · rw [hj]
      exact hash_ne_of_odd hodd
    · rw [hj]
      exact slotIndex_ne_of_odd hn h1 hodd

/-- Two addresses that no polynomial separates, and two that one does. -/
theorem separated_iff_addresses :
    let twin (a : UInt8) : Key := .ofAddress ⟨#v[2, a, 0, 0, 2, a]⟩
    let near (a : UInt8) : Key := .ofAddress ⟨#v[2, 0, 0, 0, 0, a]⟩
    let t := Table.empty 16
    twin 1 ≠ twin 2 ∧ (¬ ∃ poly, hash poly (twin 1) ≠ hash poly (twin 2)) ∧
      t.index .first (near 1) = t.index .first (near 12) ∧
      t.index .second (near 1) = t.index .second (near 12) ∧
      ∃ j, slotIndex 16 (nextPoly^[j + 1] t.firstPoly) (near 1) ≠
        slotIndex 16 (nextPoly^[j + 1] t.firstPoly) (near 12) := by
  intro twin near t
  have htwin : ¬ ∃ poly, hash poly (twin 1) ≠ hash poly (twin 2) :=
    (separated_iff (twin 1) (twin 2)).1.not.mpr (by decide)
  obtain ⟨j, -, hslots⟩ := (separated_iff (near 1) (near 12)).2 (by decide) t.firstPoly
  exact ⟨by decide, htwin, by decide +kernel, by decide +kernel, j,
    hslots 16 ⟨4, rfl⟩ (by decide)⟩

end EtherBuffer.Filter
