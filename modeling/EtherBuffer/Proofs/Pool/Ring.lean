import EtherBuffer.Pool.Reservation
import EtherBuffer.Proofs.Pool.Receipt

/-! The records in the arena. Every change of it is inside one record, behind the last one, or in the
free space. -/
namespace EtherBuffer
open Record

namespace Pool

theorem nextStart_eq (p : Pool) {v n : ℕ} (hn : extent n ≤ p.capacity) :
    p.nextStart (v % p.capacity + extent n) =
      (v + stride p.capacity v n) % p.capacity := by
  have hc := p.minUsage_le_capacity
  have hv := Nat.mod_lt v p.capacity_pos
  unfold nextStart lastStart stride
  by_cases hw : p.capacity ≤ v % p.capacity + extent n
  · have hs := p.wrap_eq (v := v) hn
    unfold wrap at hs
    rw [if_pos hw] at hs ⊢
    rw [if_neg (by omega), hs]
  · rw [if_neg hw]
    by_cases ht : p.capacity < v % p.capacity + extent n + minUsage
    · have he : v + (p.capacity - v % p.capacity) =
          p.capacity + p.capacity * (v / p.capacity) := by
        have := Nat.mod_add_div v p.capacity
        omega
      rw [if_pos (by omega), if_pos (by omega), he, Nat.add_mul_mod_self_left, Nat.mod_self]
    · rw [if_neg (by omega), if_neg (by omega), add_mod_of_lt (by omega)]

/-- The arena has the record of a receipt at a position. -/
structure Stored (p : Pool) (v : ℕ) (r : Receipt) : Prop where
  handle : r.handle = .at p.priority (v % p.capacity)
  link : Word.ofBytes (p.bytes v 4) = .ofNat (r.after p.capacity v % p.capacity)
  state : State.ofWord (Word.ofBytes (p.bytes (v + 4) 4)) = r.state
  header : Header.decode (p.bytes (v + linkSize) Header.size) = r.header
  payload : p.bytes (v + payloadOffset) r.payload.length = r.payload

def Chain (p : Pool) : ℕ → List Receipt → Prop
  | v, [] => IsStart p.capacity v
  | v, r :: rs => IsStart p.capacity v ∧ p.Stored v r ∧ p.Chain (r.after p.capacity v) rs

/-- The records that take space are those of the receipts, and the oldest one starts at the position
`base`. -/
structure Holds (p : Pool) (base : ℕ) (rs : List Receipt) : Prop where
  chain : p.Chain base rs
  readOffset_eq : p.readOffset = base % p.capacity
  writeOffset_eq : p.writeOffset = Receipt.stop p.capacity base rs % p.capacity
  stop_le : Receipt.stop p.capacity base rs ≤ base + p.capacity
  live_eq : p.live = rs.length
  small : p.arena.size < 2 ^ 32

theorem Stored.congr {p q : Pool} {v : ℕ} {r : Receipt} (h : p.Stored v r)
    (hc : q.capacity = p.capacity) (hp : q.priority = p.priority)
    (hb : ∀ x, v ≤ x → x < r.after p.capacity v → q.byte x = p.byte x) : q.Stored v r := by
  have hl := r.le_after p.capacity v
  have ho : payloadOffset = linkSize + Header.size := rfl
  have h8 : linkSize = 8 := rfl
  constructor
  · rw [hp, hc, h.handle]
  · rw [hc, bytes_congr (fun x _ _ => hb x (by omega) (by omega)), h.link]
  · rw [bytes_congr (fun x _ _ => hb x (by omega) (by omega)), h.state]
  · rw [bytes_congr (fun x _ _ => hb x (by omega) (by omega)), h.header]
  · rw [bytes_congr (fun x _ _ => hb x (by omega) (by omega)), h.payload]

namespace Chain

variable {p q : Pool} {v : ℕ} {r : Receipt} {rs ts : List Receipt}

theorem start (h : p.Chain v rs) : IsStart p.capacity v := by
  cases rs with
  | nil => exact h
  | cons r rs => exact h.1

theorem append_iff : p.Chain v (rs ++ ts) ↔
    p.Chain v rs ∧ p.Chain (Receipt.stop p.capacity v rs) ts := by
  induction rs generalizing v with
  | nil => exact ⟨fun h => ⟨h.start, h⟩, fun h => h.2⟩
  | cons r rs ih =>
    simp only [List.cons_append, Chain, Receipt.stop_cons, ih]
    tauto

theorem stop_start (h : p.Chain v rs) : IsStart p.capacity (Receipt.stop p.capacity v rs) := by
  have : p.Chain v (rs ++ []) := by rwa [List.append_nil]
  exact (append_iff.mp this).2

theorem congr (h : p.Chain v rs) (hc : q.capacity = p.capacity) (hp : q.priority = p.priority)
    (hb : ∀ x, v ≤ x → x < Receipt.stop p.capacity v rs → q.byte x = p.byte x) : q.Chain v rs := by
  induction rs generalizing v with
  | nil =>
    rw [Chain] at h ⊢
    rwa [hc]
  | cons r rs ih =>
    obtain ⟨h₁, h₂, h₃⟩ := h
    have ha := r.le_after p.capacity v
    have hs := Receipt.le_stop p.capacity (r.after p.capacity v) rs
    rw [Receipt.stop_cons] at hb
    refine ⟨by rwa [hc], h₂.congr hc hp fun x hx hx' => hb x hx (by omega), ?_⟩
    rw [hc]
    exact ih h₃ fun x hx hx' => hb x (by omega) hx'

end Chain

/-- Between `lo` and `hi`, and in all that is not about releasing records, `q` is like `p`. -/
structure Steady (p q : Pool) (lo hi : ℕ) : Prop where
  size_eq : q.arena.size = p.arena.size
  priority_eq : q.priority = p.priority
  writeOffset_eq : q.writeOffset = p.writeOffset
  committed_eq : q.committed = p.committed
  dropped_eq : q.dropped = p.dropped
  byte_eq : ∀ x, lo ≤ x → x < hi → q.byte x = p.byte x

namespace Steady

variable {p q r : Pool} {lo hi : ℕ}

theorem refl (p : Pool) (lo hi : ℕ) : p.Steady p lo hi :=
  ⟨rfl, rfl, rfl, rfl, rfl, fun _ _ _ => rfl⟩

theorem trans (h : p.Steady q lo hi) (h' : q.Steady r lo hi) : p.Steady r lo hi where
  size_eq := h'.size_eq.trans h.size_eq
  priority_eq := h'.priority_eq.trans h.priority_eq
  writeOffset_eq := h'.writeOffset_eq.trans h.writeOffset_eq
  committed_eq := h'.committed_eq.trans h.committed_eq
  dropped_eq := h'.dropped_eq.trans h.dropped_eq
  byte_eq x hx hx' := (h'.byte_eq x hx hx').trans (h.byte_eq x hx hx')

theorem capacity_eq (h : p.Steady q lo hi) : q.capacity = p.capacity := by
  simp only [capacity, h.size_eq]

end Steady

theorem Wrote.steady {p q : Pool} {v lo hi : ℕ} {bs : List UInt8} (h : p.Wrote q v bs)
    (hx : v + bs.length ≤ lo ∧ hi ≤ v + p.capacity ∨ hi ≤ v ∧ v + bs.length ≤ lo + p.capacity) :
    p.Steady q lo hi where
  size_eq := h.size_eq
  priority_eq := h.priority_eq
  writeOffset_eq := h.writeOffset_eq
  committed_eq := h.committed_eq
  dropped_eq := h.dropped_eq
  byte_eq x _ _ := h.byte_kept (by omega)

namespace Holds

variable {p q : Pool} {base : ℕ} {rs as bs : List Receipt} {r r' : Receipt}

theorem start (h : p.Holds base rs) : IsStart p.capacity base :=
  h.chain.start

theorem stop_start (h : p.Holds base rs) : IsStart p.capacity (Receipt.stop p.capacity base rs) :=
  h.chain.stop_start

theorem at_record (h : p.Holds base (as ++ r :: bs)) :
    let v := Receipt.stop p.capacity base as
    base ≤ v ∧ IsStart p.capacity v ∧ p.Stored v r ∧
      r.after p.capacity v ≤ Receipt.stop p.capacity base (as ++ r :: bs) := by
  obtain ⟨-, h₁, h₂, -⟩ := Chain.append_iff.mp h.chain
  refine ⟨Receipt.le_stop _ _ _, h₁, h₂, ?_⟩
  rw [Receipt.stop_append, Receipt.stop_cons]
  exact Receipt.le_stop _ _ _

theorem room (h : p.Holds base rs) :
    (Receipt.stop p.capacity base rs) % 4 = 0 ∧ (base + p.capacity) % 4 = 0 := by
  have h₁ := h.start.2
  have h₂ := h.stop_start.2
  have h₃ := p.capacity_mod
  omega

theorem payload_le (h : p.Holds base (as ++ r :: bs)) :
    payloadOffset + r.payload.length ≤ p.capacity := by
  obtain ⟨h₁, -, -, h₂⟩ := h.at_record
  have h₃ := r.le_after p.capacity (Receipt.stop p.capacity base as)
  have h₄ := h.stop_le
  omega

theorem payload_lt (h : p.Holds base (as ++ r :: bs)) : r.payload.length < 2 ^ 32 := by
  have h₁ := h.payload_le
  have h₂ := p.capacity_le_size
  have h₃ := h.small
  omega

theorem update (h : p.Holds base (as ++ r :: bs)) {w : ℕ} {new : List UInt8} (hw : p.Wrote q w new)
    (hlo : Receipt.stop p.capacity base as ≤ w)
    (hhi : w + new.length ≤ r.after p.capacity (Receipt.stop p.capacity base as))
    (hr : q.Stored (Receipt.stop p.capacity base as) r') (hp : r'.payload.length = r.payload.length) :
    q.Holds base (as ++ r' :: bs) := by
  obtain ⟨h₁, h₂, -, h₃⟩ := h.at_record
  have hle := h.stop_le
  have hc := hw.capacity_eq
  have ha (v : ℕ) : r'.after p.capacity v = r.after p.capacity v := by
    rw [Receipt.after, Receipt.after, hp]
  have hs : Receipt.stop p.capacity base (as ++ r' :: bs) =
      Receipt.stop p.capacity base (as ++ r :: bs) := by
    simp only [Receipt.stop_append, Receipt.stop_cons, ha]
  obtain ⟨c₁, -, -, c₂⟩ := Chain.append_iff.mp h.chain
  constructor
  · rw [Chain.append_iff, hc]
    refine ⟨c₁.congr hc hw.priority_eq fun x hx hx' => hw.byte_kept (by omega), by rwa [hc], hr, ?_⟩
    rw [hc, ha]
    refine c₂.congr hc hw.priority_eq fun x hx hx' => hw.byte_kept ?_
    rw [Receipt.stop_append, Receipt.stop_cons] at hle
    omega
  · rw [hw.readOffset_eq, h.readOffset_eq, hc]
  · rw [hw.writeOffset_eq, h.writeOffset_eq, hc, hs]
  · rw [hc, hs]
    exact hle
  · rw [hw.live_eq, h.live_eq]
    simp
  · rw [hw.size_eq]
    exact h.small

theorem append (h : p.Holds base rs) (hsize : q.arena.size = p.arena.size)
    (hprio : q.priority = p.priority) (hread : q.readOffset = p.readOffset)
    (hb : ∀ x, base ≤ x → x < Receipt.stop p.capacity base rs → q.byte x = p.byte x)
    (hr : q.Stored (Receipt.stop p.capacity base rs) r)
    (hroom : Receipt.stop p.capacity base rs + r.size ≤ base + p.capacity)
    (hw : q.writeOffset = r.after p.capacity (Receipt.stop p.capacity base rs) % p.capacity)
    (hl : q.live = p.live + 1) : q.Holds base (rs ++ [r]) := by
  have hc : q.capacity = p.capacity := by simp only [capacity, hsize]
  obtain ⟨hs, hle⟩ := isStart_add_stride p.capacity_mod h.start h.stop_start
    (Receipt.le_stop _ _ _) hroom
  have he : Receipt.stop p.capacity base (rs ++ [r]) =
      r.after p.capacity (Receipt.stop p.capacity base rs) := by
    rw [Receipt.stop_append, Receipt.stop_cons, Receipt.stop_nil]
  constructor
  · rw [Chain.append_iff, hc]
    exact ⟨h.chain.congr hc hprio hb, by rw [hc]; exact h.stop_start, hr, by rwa [Chain, hc]⟩
  · rw [hread, h.readOffset_eq, hc]
  · rw [hw, hc, he]
  · rw [hc, he]
    exact hle
  · rw [hl, h.live_eq]
    simp
  · rw [hsize]
    exact h.small

theorem freeSpace_eq (h : p.Holds base rs) :
    p.freeSpace + Receipt.stop p.capacity base rs = base + p.capacity := by
  have hle := h.stop_le
  have hw := h.writeOffset_eq
  have hr := h.readOffset_eq
  have hm := Nat.mod_lt base p.capacity_pos
  unfold freeSpace
  cases rs with
  | nil =>
    rw [if_pos (by simp [h.live_eq]), Receipt.stop_nil, Nat.add_comm]
  | cons r rs =>
    have hlt := Receipt.lt_stop_cons p.capacity base r rs
    rw [if_neg (by simp [h.live_eq])]
    generalize Receipt.stop p.capacity base (r :: rs) = stop at *
    -- The write position has gone on by `d` from the read position, by a full lap at most.
    obtain ⟨d, rfl⟩ := Nat.exists_eq_add_of_lt hlt
    have hwrap := p.wrap_eq (v := base) (d := d + 1) (by omega)
    rw [Nat.add_assoc, ← hwrap, ← hr] at hw
    unfold wrap at hw
    split_ifs at hw with hc <;> split_ifs <;> omega

theorem beyond (h : p.Holds base rs) {q : Pool} {w : ℕ} {new : List UInt8} (hw : p.Wrote q w new)
    (hlo : Receipt.stop p.capacity base rs ≤ w) (hhi : w + new.length ≤ base + p.capacity) :
    q.Holds base rs := by
  have hc := hw.capacity_eq
  constructor
  · exact h.chain.congr hc hw.priority_eq fun x hx hx' => hw.byte_kept (by omega)
  · rw [hw.readOffset_eq, h.readOffset_eq, hc]
  · rw [hw.writeOffset_eq, h.writeOffset_eq, hc]
  · rw [hc]
    exact h.stop_le
  · rw [hw.live_eq, h.live_eq]
  · rw [hw.size_eq]
    exact h.small

end Holds

end Pool

end EtherBuffer
