import EtherBuffer.Proofs.Pool.Ring

/-! Reserving, writing and committing do not fault in a pool that holds its records. -/
namespace EtherBuffer
open Record

def Region.extend (r : Region) (bytes : List UInt8) : Region where
  offset := r.offset
  written := r.written + (bytes.take r.room).length
  room := r.room - (bytes.take r.room).length
  overflowed := r.overflowed || !decide (bytes.length ≤ r.room)

namespace Pool

/-! ### The room test -/

section

variable {n : ℕ}

theorem canHold_eq (p : Pool) (h : payloadOffset + n + 3 < sizeLimit) :
    p.canHold n = .ok (decide (max minUsage (extent n) ≤ p.freeSpace)) := by
  unfold canHold checkedExtent
  rw [if_pos h]
  rfl

theorem canHold_oversized (p : Pool) (h : sizeLimit ≤ payloadOffset + n + 3) :
    p.canHold n = .error .overflow := by
  unfold canHold checkedExtent
  rw [if_neg (Nat.not_lt.mpr h)]
  rfl

theorem reserveAtLeast_of_canHold {p : Pool} {fits : Bool} (h : p.canHold n = .ok fits) :
    p.reserveAtLeast n = .ok (if fits then some p.reserve else none) := by
  unfold reserveAtLeast
  rw [h]
  cases fits <;> rfl

theorem reserveAtLeast_eq_some_iff {p : Pool} {res : Reservation} :
    p.reserveAtLeast n = .ok (some res) ↔ p.canHold n = .ok true ∧ p.reserve = res := by
  unfold reserveAtLeast
  cases p.canHold n with
  | error e => simp
  | ok fits => cases fits <;> simp

theorem reserveAtLeast_oversized (p : Pool) (h : sizeLimit ≤ payloadOffset + n + 3) :
    p.reserveAtLeast n = .error .overflow := by
  unfold reserveAtLeast
  rw [p.canHold_oversized h]
  rfl

end

/-- The space of a reservation. As long as nothing was lost it holds the bytes `bs`. -/
structure Drafted (p : Pool) (v limit : ℕ) (r : Region) (bs : List UInt8) : Prop where
  offset_eq : r.offset = p.writeOffset
  room_le : v + payloadOffset + r.written + r.room ≤ limit
  written : r.overflowed = false → p.bytes (v + payloadOffset) r.written = bs

theorem Drafted.length_eq {p : Pool} {v limit : ℕ} {r : Region} {bs : List UInt8}
    (h : p.Drafted v limit r bs) (ho : r.overflowed = false) : r.written = bs.length := by
  rw [← h.written ho, length_bytes]

theorem Drafted.steady {p q : Pool} {v limit limit' : ℕ} {r : Region} {bs : List UInt8}
    (h : p.Drafted v limit r bs) (hs : p.Steady q v limit) (hl : limit ≤ limit') :
    q.Drafted v limit' r bs where
  offset_eq := h.offset_eq.trans hs.writeOffset_eq.symm
  room_le := h.room_le.trans hl
  written ho := by
    have := h.room_le
    rw [bytes_congr fun x _ _ => hs.byte_eq x (by omega) (by omega), h.written ho]

/-- `q` is `p` with the fields of a live record at the position `v`. -/
structure Filled (p q : Pool) (v : ℕ) (header : Header) (next : ℕ) : Prop where
  size_eq : q.arena.size = p.arena.size
  priority_eq : q.priority = p.priority
  readOffset_eq : q.readOffset = p.readOffset
  live_eq : q.live = p.live
  committed_eq : q.committed = p.committed
  dropped_eq : q.dropped = p.dropped
  link : Word.ofBytes (q.bytes v 4) = .ofNat next
  state : State.ofWord (Word.ofBytes (q.bytes (v + 4) 4)) = .live
  header : Header.decode (q.bytes (v + linkSize) Header.size) = header
  kept : ∀ x n, x + n ≤ v ∧ v + payloadOffset ≤ x + p.capacity ∨
    v + payloadOffset ≤ x ∧ x + n ≤ v + p.capacity → q.bytes x n = p.bytes x n

theorem Filled.capacity_eq {p q : Pool} {v next : ℕ} {header : Header}
    (h : p.Filled q v header next) : q.capacity = p.capacity := by
  simp only [capacity, h.size_eq]

theorem fill_spec {p : Pool} {v : ℕ} (hv : v % p.capacity + payloadOffset ≤ p.capacity)
    (header : Header) (next : ℕ) :
    ∃ q₁ q₂ q₃, p.setHeaderAt (v % p.capacity) header = .ok q₁ ∧
      q₁.setLink (v % p.capacity) next = .ok q₂ ∧
      q₂.setState (v % p.capacity) .live = .ok q₃ ∧ p.Filled q₃ v header next := by
  obtain ⟨q₁, e₁, w₁⟩ := setHeaderAt_spec hv header
  have c₁ := w₁.capacity_eq
  obtain ⟨q₂, e₂, w₂⟩ := setLink_spec (p := q₁) (v := v) (by rw [c₁]; exact hv) next
  have c₂ := w₂.capacity_eq.trans c₁
  obtain ⟨q₃, e₃, w₃⟩ := setState_spec (p := q₂) (v := v) (by rw [c₂]; exact hv) .live
  rw [c₁] at e₂
  rw [c₂] at e₃
  have l₁ : header.encode.length = 36 := rfl
  have l₂ : (Word.toBytes (.ofNat next)).length = 4 := rfl
  have l₃ : (Word.toBytes State.live.toWord).length = 4 := rfl
  have s₁ : linkSize = 8 := rfl
  have s₂ : Header.size = 36 := rfl
  have s₃ : payloadOffset = 44 := rfl
  refine ⟨q₁, q₂, q₃, e₁, e₂, e₃, ?_⟩
  constructor
  · rw [w₃.size_eq, w₂.size_eq, w₁.size_eq]
  · rw [w₃.priority_eq, w₂.priority_eq, w₁.priority_eq]
  · rw [w₃.readOffset_eq, w₂.readOffset_eq, w₁.readOffset_eq]
  · rw [w₃.live_eq, w₂.live_eq, w₁.live_eq]
  · rw [w₃.committed_eq, w₂.committed_eq, w₁.committed_eq]
  · rw [w₃.dropped_eq, w₂.dropped_eq, w₁.dropped_eq]
  · rw [w₃.bytes_kept (by omega), w₂.bytes_written l₂, Word.ofBytes_toBytes]
  · rw [w₃.bytes_written l₃, Word.ofBytes_toBytes, State.ofWord_toWord]
  · rw [w₃.bytes_kept (by omega), w₂.bytes_kept (by omega),
      w₁.bytes_written (Header.length_encode _), Header.decode_encode]
  · intro x n hx
    rw [w₃.bytes_kept (by omega), w₂.bytes_kept (by omega), w₁.bytes_kept (by omega)]

namespace Holds

variable {p : Pool} {base : ℕ} {rs : List Receipt}

theorem reserve_spec (h : p.Holds base rs) :
    p.freeSpace < minUsage ∧ p.reserve = .sink 0 ∨
      ∃ r, p.reserve = .region r ∧
        p.Drafted (Receipt.stop p.capacity base rs) (base + p.capacity) r [] := by
  have hf := h.freeSpace_eq
  unfold reserve
  split_ifs with hs
  · exact Or.inl ⟨hs, rfl⟩
  · refine Or.inr ⟨_, rfl, rfl, ?_, fun _ => rfl⟩
    have h₁ : minUsage = 84 := rfl
    have h₂ : payloadOffset = 44 := rfl
    dsimp only
    omega

theorem write_spec (h : p.Holds base rs) {r : Region} {bs : List UInt8}
    (hd : p.Drafted (Receipt.stop p.capacity base rs) (base + p.capacity) r bs)
    (bytes : List UInt8) :
    ∃ q, p.write (.region r) bytes =
        .ok (q, .region (r.extend bytes), decide (bytes.length ≤ r.room)) ∧
      q.Holds base rs ∧ p.Steady q base (Receipt.stop p.capacity base rs) ∧
      q.Drafted (Receipt.stop p.capacity base rs) (base + p.capacity) (r.extend bytes)
        (bs ++ bytes) := by
  have hroom := hd.room_le
  have hle := Receipt.le_stop p.capacity base rs
  generalize hv : Receipt.stop p.capacity base rs = v at *
  have htake : (bytes.take r.room).length = min r.room bytes.length := List.length_take
  obtain ⟨q, hq, hw⟩ := storeAround_spec p (v + (payloadOffset + r.written))
    (bytes.take r.room) (by omega)
  have hpos : p.wrap (r.offset + payloadOffset + r.written) =
      (v + (payloadOffset + r.written)) % p.capacity := by
    rw [hd.offset_eq, h.writeOffset_eq, hv, Nat.add_assoc]
    exact p.wrap_eq (by omega)
  refine ⟨q, ?_, h.beyond hw (by omega) (by omega), hw.steady (by omega), ?_, ?_, ?_⟩
  · simp only [write, hpos, hq]
    rfl
  · rw [hw.writeOffset_eq]
    exact hd.offset_eq
  · simp only [Region.extend]
    omega
  · intro ho
    simp only [Region.extend, Bool.or_eq_false_iff, Bool.not_eq_false', decide_eq_true_eq] at ho
    have hall : bytes.take r.room = bytes := List.take_of_length_le ho.2
    rw [hall] at hw
    simp only [Region.extend, hall]
    rw [bytes_add, hw.bytes_kept (by omega), hd.written ho.1, Nat.add_assoc, hw.bytes_written rfl]

theorem publish_spec (h : p.Holds base rs) {r : Region} {bs : List UInt8}
    (hd : p.Drafted (Receipt.stop p.capacity base rs) (base + p.capacity) r bs)
    (ho : r.overflowed = false) (header : Header) :
    ∃ q, p.publish r header = .ok (q, .at p.priority p.writeOffset) ∧
      q.Holds base (rs ++ [{
        handle := .at p.priority p.writeOffset
        payload := bs
        header := { header with length := .ofNat bs.length, stage := .empty } }]) ∧
      q.arena.size = p.arena.size ∧ q.priority = p.priority ∧ q.committed = p.committed + 1 ∧
      q.dropped = p.dropped := by
  have hroom := hd.room_le
  have hlen := hd.length_eq ho
  have hle := Receipt.le_stop p.capacity base rs
  have hext : extent bs.length ≤ base + p.capacity - Receipt.stop p.capacity base rs := by
    have := h.room
    exact extent_le (by omega) (by omega)
  have hstart := h.stop_start.1
  have hpay := le_extent bs.length
  have hwr := h.writeOffset_eq
  have hs : payloadOffset = 44 ∧ minUsage = 84 := ⟨rfl, rfl⟩
  let next := p.nextStart (r.offset + extent r.written)
  let new : Header := { header with length := .ofNat bs.length, stage := .empty }
  have hnext : next = (Receipt.stop p.capacity base rs +
      stride p.capacity (Receipt.stop p.capacity base rs) bs.length) % p.capacity := by
    rw [← p.nextStart_eq (by omega), ← hwr, ← hd.offset_eq, ← hlen]
  generalize hv : Receipt.stop p.capacity base rs = v at *
  -- The payload is in the arena already, and the fields in front of it are filled in.
  obtain ⟨q₁, q₂, q, e₁, e₂, e₃, hf⟩ := fill_spec (p := p) (v := v) (by omega) new next
  have hcap := hf.capacity_eq
  let q' : Pool := { q with
    writeOffset := next, live := q.live + 1, committed := q.committed + 1 }
  have hfinal : p.publish r header = .ok (q', .at p.priority p.writeOffset) := by
    rw [← hwr, ← hd.offset_eq] at e₁ e₂ e₃
    unfold publish
    rw [require_of_true hd.offset_eq, ← hd.offset_eq, hlen, ok_bind, e₁, ok_bind, ← hlen, e₂,
      ok_bind, e₃, ok_bind]
    rfl
  refine ⟨q', hfinal, ?_, hf.size_eq, hf.priority_eq, ?_, hf.dropped_eq⟩
  · apply h.append (q := q') hf.size_eq hf.priority_eq hf.readOffset_eq
    · intro x hx hx'
      have := hf.kept x 1 (by omega)
      change q.byte x = _
      simpa [bytes] using this
    · rw [hv]
      constructor
      · rw [hwr, ← hf.priority_eq, ← hcap]
        rfl
      · refine hf.link.trans ?_
        rw [hnext, ← hcap]
        rfl
      · exact hf.state
      · exact hf.header
      · change q.bytes (v + payloadOffset) bs.length = bs
        rw [hf.kept _ _ (by omega), ← hlen, hd.written ho]
    · rw [hv]
      change v + extent bs.length ≤ _
      omega
    · rw [hv]
      exact hnext
    · change q.live + 1 = _
      rw [hf.live_eq]
  · change q.committed + 1 = _
    rw [hf.committed_eq]

end Holds

end Pool

end EtherBuffer
