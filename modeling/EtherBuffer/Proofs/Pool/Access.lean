import EtherBuffer.Pool.Access
import EtherBuffer.Proofs.Pool.Ring

/-! Headers and payloads are read as the receipts say, and a change of a header is a change of the
receipt. -/
namespace EtherBuffer.Pool
open Record

theorem position_at {priority : Priority} {n : ℕ} (h : n < 2 ^ 32) :
    (Handle.at priority n).position = n :=
  Nat.mod_eq_of_lt h

namespace Holds

variable {p : Pool} {base : ℕ} {as bs : List Receipt} {r : Receipt}

theorem position_eq (h : p.Holds base (as ++ r :: bs)) :
    r.handle.position = Receipt.stop p.capacity base as % p.capacity := by
  have h₁ := Nat.mod_lt (Receipt.stop p.capacity base as) p.capacity_pos
  have h₂ := p.capacity_le_size
  have h₃ := h.small
  rw [h.at_record.2.2.1.handle, position_at (by omega)]

theorem fields_fit (h : p.Holds base (as ++ r :: bs)) :
    Receipt.stop p.capacity base as % p.capacity + payloadOffset ≤ p.capacity := by
  have h₁ := h.at_record.2.1.1
  have h₂ : minUsage = payloadOffset + 40 := rfl
  omega

theorem header_eq (h : p.Holds base (as ++ r :: bs)) : p.header r.handle = .ok r.header := by
  rw [header, h.position_eq, headerAt_eq h.fields_fit, h.at_record.2.2.1.header]

theorem stateAt_handle (h : p.Holds base (as ++ r :: bs)) :
    p.stateAt r.handle.position = .ok r.state := by
  rw [h.position_eq, stateAt_eq h.fields_fit, h.at_record.2.2.1.state]

theorem linkAt_handle (h : p.Holds base (as ++ r :: bs)) :
    p.linkAt r.handle.position =
      .ok (r.after p.capacity (Receipt.stop p.capacity base as) % p.capacity) := by
  have h₁ := Nat.mod_lt (r.after p.capacity (Receipt.stop p.capacity base as)) p.capacity_pos
  have h₂ := p.capacity_le_size
  have h₃ := h.small
  rw [h.position_eq, linkAt_eq h.fields_fit, h.at_record.2.2.1.link, UInt32.toNat_ofNat',
    Nat.mod_eq_of_lt (by omega)]

theorem readPayload_within (h : p.Holds base (as ++ r :: bs)) {first n : ℕ}
    (hin : min (first + n) r.header.length.toNat ≤ r.payload.length) :
    p.readPayload r.handle first n =
      .ok ((r.payload.drop first).take (min n (r.header.length.toNat - first))) := by
  have hle := h.payload_le
  have hpos := h.position_eq
  have hpay := h.at_record.2.2.1.payload
  generalize Receipt.stop p.capacity base as = v at *
  simp only [readPayload, h.header_eq, ok_bind]
  by_cases hf : r.header.length.toNat ≤ first
  · rw [if_pos hf, Nat.sub_eq_zero_of_le hf, Nat.min_zero, List.take_zero]
    rfl
  · have hread : min (min n (r.header.length.toNat - first)) (r.payload.length - first) =
        min n (r.header.length.toNat - first) := by omega
    rw [if_neg hf, hpos, Nat.add_assoc, p.wrap_eq (by omega), loadAround_eq (by omega), ← hpay,
      drop_bytes, take_bytes, hread, Nat.add_assoc]

theorem readPayload_eq (h : p.Holds base (as ++ r :: bs))
    (hl : r.header.length.toNat = r.payload.length) (first n : ℕ) :
    p.readPayload r.handle first n = .ok ((r.payload.drop first).take n) := by
  have hrest : r.header.length.toNat - first = (r.payload.drop first).length := by
    rw [hl, List.length_drop]
  rw [h.readPayload_within (by omega), hrest, ← List.take_take, List.take_length]

theorem setHeader_spec (h : p.Holds base (as ++ r :: bs)) (header : Header) :
    ∃ q, p.setHeader r.handle header = .ok q ∧
      q.Holds base (as ++ { r with header } :: bs) ∧
      p.Steady q (Receipt.stop p.capacity base (as ++ r :: bs)) (base + p.capacity) := by
  obtain ⟨hbase, -, hr, hstop⟩ := h.at_record
  have hle := h.payload_le
  have hend := r.le_after p.capacity (Receipt.stop p.capacity base as)
  obtain ⟨q, hq, hw⟩ := setHeaderAt_spec h.fields_fit header
  have hc := hw.capacity_eq
  have l : header.encode.length = Header.size := rfl
  have hs : payloadOffset = linkSize + Header.size := rfl
  have h8 : linkSize = 8 := rfl
  refine ⟨q, ?_, h.update hw (by omega) (by omega) ?_ rfl, hw.steady (by omega)⟩
  · rw [setHeader, h.position_eq]
    exact hq
  · generalize Receipt.stop p.capacity base as = v at *
    constructor
    · rw [hw.priority_eq, hc, ← hr.handle]
    · rw [hw.bytes_kept (by omega), hc]
      exact hr.link
    · rw [hw.bytes_kept (by omega)]
      exact hr.state
    · rw [hw.bytes_written l, Header.decode_encode]
    · dsimp only
      rw [hw.bytes_kept (by omega), hr.payload]

end Holds

end EtherBuffer.Pool
