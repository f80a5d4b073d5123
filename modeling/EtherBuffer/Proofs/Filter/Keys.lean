import EtherBuffer.Ingress.Dispatcher
import EtherBuffer.Proofs.Frame.Fields
import Mathlib.Data.Nat.Bitwise

/-! What a key tells. Two requests have one key only if they are for the same frames. -/
namespace EtherBuffer

namespace Word

theorem value_lt_pow (bs : List UInt8) : value bs < 256 ^ bs.length := by
  induction bs with
  | nil => exact Nat.one_pos
  | cons b bs ih =>
    have hb := b.toNat_lt
    rw [value, List.length_cons, Nat.pow_succ]
    omega

theorem value_inj {as bs : List UInt8} (h : as.length = bs.length) :
    value as = value bs ↔ as = bs := by
  refine ⟨fun hv => ?_, congrArg value⟩
  induction as generalizing bs with
  | nil => exact (List.eq_nil_of_length_eq_zero h.symm).symm
  | cons a as ih =>
    obtain ⟨b, bs, rfl⟩ := List.exists_cons_of_length_eq_add_one h.symm
    have ha := a.toNat_lt
    have hb := b.toNat_lt
    rw [value, value] at hv
    have hab : a = b := UInt8.toNat_inj.mp (by omega)
    rw [hab, ih (Nat.succ.inj h) (by omega)]

end Word

namespace Filter

open EtherBuffer.Frame EtherBuffer.Ingress

/-- Of an identifier twelve bits count. -/
def SameNetwork : Option UInt16 → Option UInt16 → Prop
  | none, none => True
  | some v, some w => v.toNat % 4096 = w.toNat % 4096
  | none, some _ | some _, none => False

namespace Key

variable {k l : Key} {v w : UInt16}

theorem eq_iff : k = l ↔ k.low.toNat = l.low.toNat ∧ k.high.toNat = l.high.toNat := by
  rw [UInt32.toNat_inj, UInt32.toNat_inj]
  exact ⟨fun h => h ▸ ⟨rfl, rfl⟩, fun ⟨hlow, hhigh⟩ => by cases k; cases l; simp_all⟩

theorem toNat_low_ofAddress (a : Address) :
    (ofAddress a).low.toNat = Word.value (a.octets.toList.take 4) := by
  have hlt := Word.value_lt_pow (a.octets.toList.take 4)
  rw [List.length_take, Vector.length_toList] at hlt
  exact UInt32.toNat_ofNat_of_lt' hlt

theorem toNat_high_ofAddress (a : Address) :
    (ofAddress a).high.toNat = Word.value (a.octets.toList.drop 4) := by
  have hlt := Word.value_lt_pow (a.octets.toList.drop 4)
  rw [List.length_drop, Vector.length_toList] at hlt
  exact UInt32.toNat_ofNat_of_lt' (hlt.trans (by decide))

/-- The address leaves the half of its second word free that the network takes. -/
theorem toNat_high_ofAddress_lt (a : Address) : (ofAddress a).high.toNat < 65536 := by
  have hlt := Word.value_lt_pow (a.octets.toList.drop 4)
  rw [List.length_drop, Vector.length_toList] at hlt
  rw [toNat_high_ofAddress]
  exact hlt

theorem ofAddress_inj {a b : Address} : ofAddress a = ofAddress b ↔ a = b := by
  refine ⟨fun h => ?_, congrArg ofAddress⟩
  obtain ⟨hlow, hhigh⟩ := eq_iff.mp h
  rw [toNat_low_ofAddress, toNat_low_ofAddress, Word.value_inj (by simp)] at hlow
  rw [toNat_high_ofAddress, toNat_high_ofAddress, Word.value_inj (by simp)] at hhigh
  have hoctets : a.octets.toList = b.octets.toList := by
    rw [← List.take_append_drop 4 a.octets.toList, hlow, hhigh, List.take_append_drop]
  cases a
  cases b
  rw [Address.mk.injEq]
  exact Vector.toList_inj.mp hoctets

theorem toNat_high_withVlan (k : Key) (v : UInt16) :
    (k.withVlan v).high.toNat = k.high.toNat % 2 ^ 16 + 2 ^ 16 * (2 ^ 15 + v.toNat % 2 ^ 12) := by
  have hlow : k.high.toNat % 2 ^ 16 < 2 ^ 16 := Nat.mod_lt _ (by decide)
  have hid : v.toNat % 2 ^ 12 < 2 ^ 15 := (Nat.mod_lt _ (by decide)).trans (by decide)
  have hmask (n i : ℕ) : n &&& (2 ^ i - 1) = n % 2 ^ i := Nat.and_two_pow_sub_one_eq_mod n i
  -- The mark is above the identifier, and the tag above the octets, so that both disjunctions are sums.
  have hvlan : (v &&& vlanMask).toNat = v.toNat % 2 ^ 12 := hmask v.toNat 12
  have htag : (vlanMark ||| (v &&& vlanMask).toUInt32).toNat = 2 ^ 15 + v.toNat % 2 ^ 12 := by
    rw [UInt32.toNat_or, UInt16.toNat_toUInt32, hvlan]
    exact (Nat.two_pow_add_eq_or_of_lt hid 1).symm
  have hshift : ((vlanMark ||| (v &&& vlanMask).toUInt32) <<< 16).toNat =
      2 ^ 16 * (2 ^ 15 + v.toNat % 2 ^ 12) := by
    rw [UInt32.toNat_shiftLeft, htag, Nat.shiftLeft_eq]
    change (2 ^ 15 + v.toNat % 2 ^ 12) * 2 ^ 16 % 2 ^ 32 = _
    omega
  have hoctets : (k.high &&& octetMask).toNat = k.high.toNat % 2 ^ 16 := hmask k.high.toNat 16
  change ((k.high &&& octetMask) ||| _).toNat = _
  rw [UInt32.toNat_or, hoctets, hshift, Nat.or_comm, ← Nat.two_pow_add_eq_or_of_lt hlow,
    Nat.add_comm]

theorem withVlan_eq_withVlan_iff : k.withVlan v = l.withVlan w ↔
    k.low = l.low ∧ k.high.toNat % 65536 = l.high.toNat % 65536 ∧
      v.toNat % 4096 = w.toNat % 4096 := by
  have hk : (k.withVlan v).low = k.low := rfl
  have hl : (l.withVlan w).low = l.low := rfl
  rw [eq_iff, toNat_high_withVlan, toNat_high_withVlan, hk, hl, UInt32.toNat_inj]
  refine and_congr_right fun _ => ?_
  omega

theorem withVlan_withVlan (k : Key) (v w : UInt16) : (k.withVlan v).withVlan w = k.withVlan w := by
  rw [withVlan_eq_withVlan_iff, toNat_high_withVlan]
  refine ⟨rfl, ?_, rfl⟩
  omega

/-- The mark of a restricted key is above all words of an address. -/
theorem withVlan_ne_ofAddress (k : Key) (v : UInt16) (a : Address) :
    k.withVlan v ≠ ofAddress a := by
  intro h
  have hhigh := (eq_iff.mp h).2
  have hlt := toNat_high_ofAddress_lt a
  rw [toNat_high_withVlan] at hhigh
  omega

theorem ofAddress_zero : ofAddress .zero = .zero := by
  decide

def ofEnvelope (e : Envelope) : Key :=
  Request.key { address := e.destination, vlan := e.vlan }

end Key

namespace Request

theorem key_eq_iff (r s : Request) :
    r.key = s.key ↔ r.address = s.address ∧ SameNetwork r.vlan s.vlan := by
  unfold key
  cases hr : r.vlan with
  | none =>
    cases hs : s.vlan with
    | none => simp [SameNetwork, Key.ofAddress_inj]
    | some w => simp [SameNetwork, (Key.withVlan_ne_ofAddress _ w r.address).symm]
  | some v =>
    cases hs : s.vlan with
    | none => simp [SameNetwork, Key.withVlan_ne_ofAddress]
    | some w =>
      have ha := Key.toNat_high_ofAddress_lt r.address
      have hb := Key.toNat_high_ofAddress_lt s.address
      rw [Key.withVlan_eq_withVlan_iff, Nat.mod_eq_of_lt ha, Nat.mod_eq_of_lt hb, ← and_assoc,
        ← UInt32.toNat_inj, ← Key.eq_iff, Key.ofAddress_inj]
      rfl

theorem key_eq_zero_iff (r : Request) : r.key = .zero ↔ r.address = .zero ∧ r.vlan = none := by
  have hnone := key_eq_iff r { address := .zero }
  have hzero : key { address := .zero } = .zero := Key.ofAddress_zero
  rw [hzero] at hnone
  rw [hnone]
  cases r.vlan <;> simp [SameNetwork]

/-- A tagged frame is looked up under its address and network, and then under its address. -/
theorem hit?_of_tagged {f : List UInt8} (ht : Tagged f) (hl : 18 ≤ f.length) :
    ∃ e, Envelope.ofHead? (f.take envelopeSize) f.length = some e ∧
      e.destination = destination f ∧ e.vlan = some (network f) ∧
      ∀ directory, Dispatcher.hit? directory e =
        (directory (.ofEnvelope e)).or (directory (.ofAddress e.destination)) := by
  have hhead := ofHead?_take (f := f) (by omega)
  rw [if_neg fun h => absurd h.2 (by omega), if_pos ht] at hhead
  exact ⟨_, hhead, rfl, rfl, fun directory => Option.orElse_eq_or⟩

theorem toNat_network (f : List UInt8) :
    (network f).toNat = bigEndian ((f.drop 14).take 2) % 4096 :=
  UInt16.toNat_ofNat_of_lt' ((Nat.mod_lt _ (by decide)).trans (by decide))

/-- A key is for one address and one network or any, and a tagged frame is looked up under the keys for
it. -/
theorem key_faithful :
    (∀ r s : Request, r.key = s.key ↔ r.address = s.address ∧ SameNetwork r.vlan s.vlan) ∧
    (∀ r : Request, r.key = .zero ↔ r.address = .zero ∧ r.vlan = none) ∧
    (∀ (k : Key) (v w : UInt16), (k.withVlan v).withVlan w = k.withVlan w) ∧
    ∀ f, Tagged f → 18 ≤ f.length →
      ∃ e, Envelope.ofHead? (f.take envelopeSize) f.length = some e ∧
        (∀ directory, Dispatcher.hit? directory e =
          (directory (.ofEnvelope e)).or (directory (.ofAddress e.destination))) ∧
        ∀ r : Request, .ofEnvelope e = r.key ↔ r.address = destination f ∧
          ∃ v, r.vlan = some v ∧ v.toNat % 4096 = bigEndian ((f.drop 14).take 2) % 4096 := by
  refine ⟨key_eq_iff, key_eq_zero_iff, Key.withVlan_withVlan, fun f ht hl => ?_⟩
  obtain ⟨e, he, haddress, hvlan, hhit⟩ := hit?_of_tagged ht hl
  refine ⟨e, he, hhit, fun r => ?_⟩
  rw [Key.ofEnvelope, key_eq_iff, haddress, hvlan, eq_comm (a := destination f)]
  refine and_congr_right fun _ => ?_
  cases r.vlan with
  | none => simp [SameNetwork]
  | some v =>
    simp only [SameNetwork, Option.some.injEq, exists_eq_left', toNat_network, Nat.mod_mod]
    exact eq_comm

/-- The priority bits of a tag do not count. -/
theorem key_faithful_tagged :
    let f : List UInt8 := [2, 0, 0, 0, 0, 1, 2, 0, 0, 0, 0, 9, 0x81, 0x00, 0xEF, 0xFF, 0x08, 0x00]
    let r (vlan : Option UInt16) : Request := { address := ⟨#v[2, 0, 0, 0, 0, 1]⟩, vlan }
    Tagged f ∧ ∃ e, Envelope.ofHead? (f.take envelopeSize) f.length = some e ∧
      .ofEnvelope e = (r (some 0x3FFF)).key ∧ .ofEnvelope e ≠ (r (some 0xFFE)).key ∧
      .ofEnvelope e ≠ (r none).key := by
  intro f r
  have ht : Tagged f := by decide
  obtain ⟨-, -, -, hframe⟩ := key_faithful
  obtain ⟨e, he, -, hkey⟩ := hframe f ht (by decide)
  have hid : bigEndian ((f.drop 14).take 2) % 4096 = 0xFFF := by decide
  refine ⟨ht, e, he, (hkey _).mpr ⟨by decide, 0x3FFF, rfl, by rw [hid]; decide⟩, fun h => ?_,
    fun h => ?_⟩
  · obtain ⟨-, v, hv, hmod⟩ := (hkey _).mp h
    obtain rfl := Option.some.inj hv
    rw [hid] at hmod
    exact absurd hmod (by decide)
  · obtain ⟨-, v, hv, -⟩ := (hkey _).mp h
    cases hv

end Request

end Filter

end EtherBuffer
