import EtherBuffer.Filter.Recipients
import Mathlib.Data.Finset.Basic
import Mathlib.Data.Finset.Filter
import Mathlib.Data.Finset.Range

/-! Packed sets of clients as sets. -/
namespace EtherBuffer.Recipients

variable {client i : ℕ} {r s : Recipients}

def bit (r : Recipients) (i : ℕ) : Bool :=
  r.bits.toBitVec.getLsbD i

theorem toBitVec_clientBit (h : client < 32) :
    (clientBit client).toBitVec = BitVec.twoPow 32 client := by
  have hc : (UInt32.ofNat client).toNat % 32 = client := by
    rw [UInt32.toNat_ofNat']
    omega
  apply BitVec.eq_of_toNat_eq
  rw [BitVec.toNat_twoPow, ← UInt32.toNat, clientBit, UInt32.toNat_shiftLeft, hc]
  rw [show (1 : UInt32).toNat = 1 from rfl, Nat.one_shiftLeft]

theorem highBit_eq : highBit = clientBit capacity := by
  decide

theorem and_clientBit (h : client < 32) (x : UInt32) :
    (x &&& clientBit client != 0) = x.toBitVec.getLsbD client := by
  have hz : (x &&& clientBit client = 0) ↔ x.toBitVec.getLsbD client = false := by
    rw [← UInt32.toBitVec_inj, UInt32.toBitVec_and, toBitVec_clientBit h, BitVec.and_twoPow]
    constructor
    · intro hx
      by_contra hb
      rw [if_pos (by simpa using hb)] at hx
      have := congrArg (BitVec.getLsbD · client) hx
      simp [h] at this
    · intro hb
      rw [if_neg (by simp [hb])]
      rfl
  cases hb : x.toBitVec.getLsbD client with
  | false => simp [hz.mpr hb]
  | true =>
    have : ¬ x &&& clientBit client = 0 := fun hx => by simp [hz.mp hx] at hb
    simp [this]

theorem has_eq : r.has client = (decide (client < capacity) && r.bit client) := by
  unfold has
  by_cases h : client < capacity
  · rw [and_clientBit (by unfold capacity at h; omega)]
    rfl
  · simp [h]

theorem isHigh_eq : r.isHigh = r.bit capacity := by
  unfold isHigh
  rw [highBit_eq, and_clientBit (by decide)]
  rfl

theorem bit_union : (r.union s).bit i = (r.bit i || s.bit i) := by
  simp [bit, union]

theorem bit_single (h : client < 32) : bit ⟨clientBit client⟩ i = decide (client = i) := by
  simp [bit, toBitVec_clientBit h, BitVec.getLsbD_twoPow, h]

theorem bit_erase (h : client < capacity) :
    (r.erase client).bit i = (r.bit i && decide (client ≠ i)) := by
  have h' : client < 32 := by unfold capacity at h; omega
  unfold erase
  rw [if_pos h]
  simp only [bit, UInt32.toBitVec_and, UInt32.toBitVec_not, toBitVec_clientBit h',
    BitVec.getLsbD_and, BitVec.getLsbD_not, BitVec.getLsbD_twoPow]
  by_cases hi : i < 32
  · by_cases hc : client = i <;> simp [hi, hc, h']
  · simp [hi, BitVec.getLsbD_of_ge _ _ (Nat.le_of_not_lt hi)]

theorem bit_withHigh (r : Recipients) (high : Bool) (i : ℕ) :
    (r.withHigh high).bit i = if i = capacity then high else r.bit i := by
  have h₃₁ : capacity < 32 := by decide
  unfold withHigh
  rw [highBit_eq]
  cases high with
  | false =>
    simp only [bit, Bool.false_eq_true, if_false, UInt32.toBitVec_and, UInt32.toBitVec_not,
      toBitVec_clientBit h₃₁, BitVec.getLsbD_and, BitVec.getLsbD_not, BitVec.getLsbD_twoPow]
    by_cases hi : i < 32
    · by_cases hc : i = capacity
      · simp [hc, h₃₁]
      · simp [hi, hc, h₃₁, Ne.symm hc]
    · simp [hi, BitVec.getLsbD_of_ge _ _ (Nat.le_of_not_lt hi)]
  | true =>
    simp only [bit, if_true, UInt32.toBitVec_or, toBitVec_clientBit h₃₁, BitVec.getLsbD_or,
      BitVec.getLsbD_twoPow]
    by_cases hc : i = capacity
    · simp [hc, h₃₁]
    · simp [hc, Ne.symm hc]

theorem ext_bit (h : ∀ i ≤ capacity, r.bit i = s.bit i) : r = s := by
  obtain ⟨r⟩ := r
  obtain ⟨s⟩ := s
  congr 1
  rw [← UInt32.toBitVec_inj]
  apply BitVec.eq_of_getLsbD_eq
  intro i hi
  exact h i (Nat.le_of_lt_succ hi)

def clients (r : Recipients) : Finset ℕ :=
  (Finset.range capacity).filter fun client => r.bit client

theorem mem_clients : client ∈ r.clients ↔ client < capacity ∧ r.bit client := by
  simp [clients]

theorem has_eq_decide : r.has client = decide (client ∈ r.clients) := by
  simp [has_eq, mem_clients]

theorem clients_single (h : client < capacity) {high : Bool} :
    (withHigh ⟨clientBit client⟩ high).clients = {client} := by
  ext i
  have h' : client < 32 := by unfold capacity at h; omega
  rw [mem_clients, bit_withHigh, bit_single h', Finset.mem_singleton]
  constructor
  · rintro ⟨hi, hb⟩
    rw [if_neg hi.ne] at hb
    exact (of_decide_eq_true hb).symm
  · rintro rfl
    exact ⟨h, by simp [h.ne]⟩

theorem isHigh_withHigh {high : Bool} : (r.withHigh high).isHigh = high := by
  rw [isHigh_eq, bit_withHigh, if_pos rfl]

theorem clients_union : (r.union s).clients = r.clients ∪ s.clients := by
  ext i
  simp only [mem_clients, bit_union, Finset.mem_union, Bool.or_eq_true]
  tauto

theorem isHigh_union : (r.union s).isHigh = (r.isHigh || s.isHigh) := by
  simp only [isHigh_eq, bit_union]

theorem clients_erase : (r.erase client).clients = r.clients.erase client := by
  by_cases h : client < capacity
  · ext i
    simp only [mem_clients, bit_erase h, Finset.mem_erase, Bool.and_eq_true, decide_eq_true_eq]
    tauto
  · have hc : client ∉ r.clients := fun hm => h (mem_clients.mp hm).1
    rw [Finset.erase_eq_of_notMem hc]
    unfold erase
    rw [if_neg h]

theorem isHigh_erase : (r.erase client).isHigh = r.isHigh := by
  by_cases h : client < capacity
  · simp [isHigh_eq, bit_erase h, h.ne]
  · unfold erase
    rw [if_neg h]

theorem isEmpty_eq : r.isEmpty = decide (r.clients = ∅) := by
  have hw : r.isEmpty = decide (r.withHigh false = nobody) := by
    simp only [isEmpty, clientBits, withHigh, nobody, Bool.false_eq_true, if_false, mk.injEq]
    rfl
  have hb (i : ℕ) : nobody.bit i = false := by simp [bit, nobody]
  rw [hw, decide_eq_decide]
  constructor
  · intro h
    apply Finset.eq_empty_of_forall_notMem
    intro i hi
    obtain ⟨hi, hbit⟩ := mem_clients.mp hi
    have h₀ := bit_withHigh r false i
    rw [h, hb, if_neg hi.ne, hbit] at h₀
    cases h₀
  · intro h
    apply ext_bit
    intro i hi
    rw [bit_withHigh, hb]
    split_ifs with hc
    · rfl
    · by_contra hbit
      have hm : i ∈ r.clients := mem_clients.mpr ⟨by omega, by simpa using hbit⟩
      simp [h] at hm

theorem ext_clients (hc : r.clients = s.clients) (hh : r.isHigh = s.isHigh) : r = s := by
  apply ext_bit
  intro i hi
  rw [isHigh_eq, isHigh_eq] at hh
  rcases hi.lt_or_eq with hlt | rfl
  · have hm := Finset.ext_iff.mp hc i
    simp only [mem_clients, hlt, true_and] at hm
    exact Bool.eq_iff_iff.mpr hm
  · exact hh

end EtherBuffer.Recipients
