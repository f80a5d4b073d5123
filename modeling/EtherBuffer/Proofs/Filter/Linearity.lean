import EtherBuffer.Filter.Table
import Mathlib.Data.Nat.Bitwise
import Mathlib.Tactic.SplitIfs

/-! The hash of keys keeps exclusive or, which alone tells whether two keys share a slot. -/
namespace EtherBuffer.Filter

/-- Keys are added word by word, without carry. -/
instance : XorOp Key where
  xor k l := ⟨k.low ^^^ l.low, k.high ^^^ l.high⟩

theorem and_one_eq_zero_iff (x : UInt32) : x &&& 1 = 0 ↔ x.toNat % 2 = 0 := by
  have hand : (x &&& 1).toNat = x.toNat % 2 := (UInt32.toNat_and x 1).trans (Nat.and_one_is_mod _)
  rw [← UInt32.toNat_inj, hand]
  rfl

theorem toNat_xor_mod_two (x y : UInt32) :
    (x ^^^ y).toNat % 2 = (x.toNat + y.toNat) % 2 := by
  rw [UInt32.toNat_xor]
  exact Nat.xor_mod_two_eq

theorem xor_xor_xor_comm (a b c d : UInt32) : (a ^^^ b) ^^^ (c ^^^ d) = (a ^^^ c) ^^^ (b ^^^ d) := by
  ac_rfl

/-- A step shifts the word, and adds the polynomial for the bit that goes out. -/
theorem shiftBit_eq (poly x : UInt32) :
    shiftBit poly x = (x >>> 1) ^^^ (if x.toNat % 2 = 0 then 0 else poly) := by
  unfold shiftBit
  simp only [and_one_eq_zero_iff]
  split_ifs
  · rw [UInt32.xor_zero]
  · rfl

theorem shiftBit_xor (poly x y : UInt32) :
    shiftBit poly (x ^^^ y) = shiftBit poly x ^^^ shiftBit poly y := by
  have hparity := toNat_xor_mod_two x y
  -- The polynomial is added twice, and so not at all, if both words shift out a bit.
  have hpoly : (if (x ^^^ y).toNat % 2 = 0 then 0 else poly) =
      (if x.toNat % 2 = 0 then 0 else poly) ^^^ (if y.toNat % 2 = 0 then 0 else poly) := by
    rw [hparity, Nat.add_mod]
    rcases Nat.mod_two_eq_zero_or_one x.toNat with hx | hx <;>
      rcases Nat.mod_two_eq_zero_or_one y.toNat with hy | hy <;> simp [hx, hy]
  rw [shiftBit_eq, shiftBit_eq, shiftBit_eq, UInt32.shiftRight_xor, hpoly, xor_xor_xor_comm]

theorem shiftBits_xor (poly : UInt32) (n : ℕ) (x y : UInt32) :
    shiftBits poly n (x ^^^ y) = shiftBits poly n x ^^^ shiftBits poly n y := by
  induction n generalizing x y with
  | zero => rfl
  | succ n ih =>
    unfold shiftBits
    rw [shiftBit_xor, ih]

theorem foldWord_xor (poly c d x y : UInt32) :
    foldWord poly (c ^^^ d) (x ^^^ y) = foldWord poly c x ^^^ foldWord poly d y := by
  unfold foldWord
  rw [xor_xor_xor_comm, shiftBits_xor]

theorem hash_xor (poly : UInt32) (k l : Key) : hash poly (k ^^^ l) = hash poly k ^^^ hash poly l := by
  have hwords : foldWord poly (k ^^^ l).low (k ^^^ l).high =
      foldWord poly k.low k.high ^^^ foldWord poly l.low l.high :=
    foldWord_xor poly k.low l.low k.high l.high
  have hflush := foldWord_xor poly (foldWord poly k.low k.high) (foldWord poly l.low l.high) 0 0
  rw [UInt32.xor_self, ← hwords] at hflush
  exact hflush

section
variable {n : ℕ} [Positive n]

theorem val_slotIndex (poly : UInt32) (k : Key) :
    (slotIndex n poly k).val = (hash poly k).toNat % n :=
  rfl

/-- The slot is told by low bits of the hash, of which exclusive or takes each by itself. -/
theorem val_slotIndex_xor (hn : n.isPowerOfTwo) (poly : UInt32) (k l : Key) :
    (slotIndex n poly (k ^^^ l)).val = (slotIndex n poly k).val ^^^ (slotIndex n poly l).val := by
  obtain ⟨d, hd⟩ := hn
  rw [val_slotIndex, val_slotIndex, val_slotIndex, hash_xor, UInt32.toNat_xor, hd,
    Nat.xor_mod_two_pow]

theorem slotIndex_eq_iff (hn : n.isPowerOfTwo) (poly : UInt32) (k l : Key) :
    slotIndex n poly k = slotIndex n poly l ↔ slotIndex n poly (k ^^^ l) = 0 := by
  have hzero : (0 : Fin n).val = 0 := rfl
  rw [Fin.ext_iff, Fin.ext_iff, val_slotIndex_xor hn, hzero, Nat.xor_eq_zero_iff]

/-- Hash and slot of an exclusive or are the exclusive or of hashes and slots, which is zero where two
keys share a slot. -/
theorem hash_linear (hn : n.isPowerOfTwo) (poly : UInt32) (k l : Key) :
    hash poly (k ^^^ l) = hash poly k ^^^ hash poly l ∧
      (slotIndex n poly (k ^^^ l)).val = (slotIndex n poly k).val ^^^ (slotIndex n poly l).val ∧
      (slotIndex n poly k = slotIndex n poly l ↔ slotIndex n poly (k ^^^ l) = 0) :=
  ⟨hash_xor poly k l, val_slotIndex_xor hn poly k l, slotIndex_eq_iff hn poly k l⟩

end

/-- Two addresses share one of sixteen slots, and so do two others with the same exclusive or. -/
theorem hash_linear_shared :
    let k (a : UInt8) : Key := .ofAddress ⟨#v[2, 0, 0, 0, 0, a]⟩
    let poly := (Table.empty 16).firstPoly
    k 1 ^^^ k 12 = k 5 ^^^ k 8 ∧ slotIndex 16 poly (k 1) = slotIndex 16 poly (k 12) ∧
      slotIndex 16 poly (k 5) = slotIndex 16 poly (k 8) := by
  intro k poly
  have hn : Nat.isPowerOfTwo 16 := ⟨4, rfl⟩
  have hsame : k 1 ^^^ k 12 = k 5 ^^^ k 8 := by decide
  have hshared : slotIndex 16 poly (k 1) = slotIndex 16 poly (k 12) := by decide +kernel
  obtain ⟨-, -, hone⟩ := hash_linear hn poly (k 1) (k 12)
  obtain ⟨-, -, hother⟩ := hash_linear hn poly (k 5) (k 8)
  exact ⟨hsame, hshared, hother.mpr (hsame ▸ hone.mp hshared)⟩

end EtherBuffer.Filter
