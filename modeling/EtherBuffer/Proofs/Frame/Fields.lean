import EtherBuffer.Frame.Envelope
import Mathlib.Tactic.SplitIfs
import Mathlib.Data.List.GetD

/-! The fields of a frame, as its bytes tell. -/
namespace EtherBuffer.Frame

def bigEndian (bytes : List UInt8) : ℕ :=
  bytes.foldl (fun n b => 256 * n + b.toNat) 0

/-- The frame announces a tag behind its addresses. -/
def Tagged (f : List UInt8) : Prop :=
  (f.drop 12).take 2 = [0x81, 0x00]
  deriving Decidable

/-- The frame is too short for its fields, or too long for the wire. -/
def Malformed (f : List UInt8) : Prop :=
  f.length < 14 ∨ 1522 < f.length ∨ Tagged f ∧ f.length < 18
  deriving Decidable

def destination (f : List UInt8) : Address :=
  ⟨.ofFn fun i : Fin 6 => f.getD i 0⟩

/-- The low 12 bits of a tag. -/
def network (f : List UInt8) : UInt16 :=
  .ofNat (bigEndian ((f.drop 14).take 2) % 4096)

def etherType (f : List UInt8) : UInt16 :=
  .ofNat (bigEndian ((f.drop (if Tagged f then 16 else 12)).take 2))

variable {f : List UInt8} {i n : ℕ}

theorem getD_take (h : i < n) : (f.take n).getD i 0 = f.getD i 0 := by
  rw [List.getD_eq_getElem?_getD, List.getElem?_take_of_lt h, List.getD_eq_getElem?_getD]

theorem field16_take (h : i + 1 < n) : field16 (f.take n) i = field16 f i := by
  rw [field16, getD_take (Nat.lt_of_succ_lt h), getD_take h, field16]

theorem take_two_drop (h : i + 2 ≤ f.length) :
    (f.drop i).take 2 = [f.getD i 0, f.getD (i + 1) 0] := by
  rw [List.drop_eq_getElem_cons (by omega), List.drop_eq_getElem_cons (by omega),
    List.getD_eq_getElem f 0 (by omega), List.getD_eq_getElem f 0 (by omega)]
  rfl

theorem field16_eq (h : i + 2 ≤ f.length) :
    field16 f i = .ofNat (bigEndian ((f.drop i).take 2)) := by
  rw [take_two_drop h]
  simp [field16, bigEndian]

theorem pair_eq_iff (a b c d : UInt8) :
    UInt16.ofNat (256 * a.toNat + b.toNat) = .ofNat (256 * c.toNat + d.toNat) ↔
      [a, b] = [c, d] := by
  have ha := a.toNat_lt
  have hb := b.toNat_lt
  have hc := c.toNat_lt
  have hd := d.toNat_lt
  rw [← UInt16.toNat_inj, UInt16.toNat_ofNat', UInt16.toNat_ofNat', Nat.mod_eq_of_lt (by omega),
    Nat.mod_eq_of_lt (by omega)]
  simp only [List.cons.injEq, and_true, ← UInt8.toNat_inj]
  omega

theorem field16_eq_tag_iff (h : 14 ≤ f.length) : field16 f 12 = tagEtherType ↔ Tagged f := by
  rw [Tagged, take_two_drop h]
  exact pair_eq_iff _ _ 0x81 0x00

theorem and_vlanMask (n : ℕ) : UInt16.ofNat n &&& vlanMask = .ofNat (n % 4096) := by
  have hmask (k : ℕ) : k &&& vlanMask.toNat = k % 4096 := Nat.and_two_pow_sub_one_eq_mod k 12
  apply UInt16.toNat_inj.mp
  rw [UInt16.toNat_and, hmask, UInt16.toNat_ofNat', UInt16.toNat_ofNat']
  omega

theorem ofFrame?_take (h : 14 ≤ f.length) (hn : 6 ≤ n) :
    Address.ofFrame? (f.take n) = some (destination f) := by
  have hlen : 6 ≤ (f.take n).length := by
    rw [List.length_take]
    omega
  rw [Address.ofFrame?, dif_pos hlen]
  refine congrArg (fun v => some (Address.mk v)) (Vector.ext fun i hi => ?_)
  rw [Vector.getElem_ofFn, List.getD_eq_getElem f 0 (by omega)]
  simp

theorem ofHead?_take (h : 14 ≤ f.length) :
    Envelope.ofHead? (f.take envelopeSize) f.length =
      if Tagged f ∧ f.length < 18 then none
      else some ⟨destination f, etherType f, if Tagged f then some (network f) else none⟩ := by
  have hkind : field16 (f.take envelopeSize) etherTypeOffset = field16 f 12 :=
    field16_take (by decide)
  have htag : field16 (f.take envelopeSize) (etherTypeOffset + 2) = field16 f 14 :=
    field16_take (by decide)
  have hinner : field16 (f.take envelopeSize) (etherTypeOffset + tagSize) = field16 f 16 :=
    field16_take (by decide)
  have hsize : f.length < envelopeSize ↔ f.length < 18 := Iff.rfl
  have hhead := ofFrame?_take h (by decide : 6 ≤ envelopeSize)
  have htagged := field16_eq_tag_iff h
  unfold Envelope.ofHead? network etherType
  simp only [hhead, hkind, htag, hinner, hsize, ne_eq, htagged, Option.bind_eq_bind,
    Option.bind_some]
  by_cases ht : Tagged f
  · simp only [ht, not_true, if_true, if_false, true_and]
    split_ifs with hl
    · rfl
    · rw [field16_eq (by omega), field16_eq (by omega), and_vlanMask]
      rfl
  · simp only [ht, not_false_iff, if_true, if_false, false_and]
    rw [field16_eq (by omega)]
    rfl

end EtherBuffer.Frame
