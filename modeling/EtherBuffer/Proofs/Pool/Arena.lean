import EtherBuffer.Pool.Basic
import Mathlib.Data.Nat.ModEq
import Mathlib.Tactic.Linarith

/-! The arena as a ring of bytes. Positions are counted on past its end, so that every access is to an
interval. -/
namespace EtherBuffer.Pool
open Record

theorem minUsage_le_capacity (p : Pool) : minUsage ≤ p.capacity := p.roomy

theorem capacity_pos (p : Pool) : 0 < p.capacity :=
  lt_of_lt_of_le (by decide) p.minUsage_le_capacity

theorem capacity_le_size (p : Pool) : p.capacity ≤ p.arena.size := by
  unfold capacity wholeWords
  omega

theorem capacity_mod (p : Pool) : p.capacity % 4 = 0 := by
  unfold capacity wholeWords
  omega

theorem eq_of_mod_eq {c a x y : ℕ} (hx : a ≤ x) (hx' : x < a + c) (hy : a ≤ y) (hy' : y < a + c)
    (h : x % c = y % c) : x = y := by
  rcases Nat.le_total x y with hle | hle
  · have hz : (y - x) % c = 0 := Nat.sub_mod_eq_zero_of_mod_eq h.symm
    rw [Nat.mod_eq_of_lt (by omega)] at hz
    omega
  · have hz : (x - y) % c = 0 := Nat.sub_mod_eq_zero_of_mod_eq h
    rw [Nat.mod_eq_of_lt (by omega)] at hz
    omega

theorem add_mod_of_lt {c v d : ℕ} (h : v % c + d < c) : (v + d) % c = v % c + d := by
  rw [← Nat.mod_add_mod, Nat.mod_eq_of_lt h]

def byte (p : Pool) (v : ℕ) : UInt8 :=
  p.arena.getD (v % p.capacity) 0

def bytes (p : Pool) (v n : ℕ) : List UInt8 :=
  (List.range n).map fun k => p.byte (v + k)

@[simp] theorem length_bytes (p : Pool) (v n : ℕ) : (p.bytes v n).length = n := by
  simp [bytes]

@[simp] theorem getElem_bytes (p : Pool) (v n k : ℕ) (h : k < (p.bytes v n).length) :
    (p.bytes v n)[k] = p.byte (v + k) := by
  simp [bytes]

theorem bytes_add (p : Pool) (v m n : ℕ) :
    p.bytes v (m + n) = p.bytes v m ++ p.bytes (v + m) n := by
  simp [bytes, List.range_add, Nat.add_assoc]

theorem take_bytes (p : Pool) (v n k : ℕ) : (p.bytes v n).take k = p.bytes v (min k n) := by
  simp [bytes, ← List.map_take, List.take_range]

theorem drop_bytes (p : Pool) (v n k : ℕ) : (p.bytes v n).drop k = p.bytes (v + k) (n - k) := by
  apply List.ext_getElem (by simp)
  intro i h₁ h₂
  simp [Nat.add_assoc]

theorem bytes_congr {p q : Pool} {v n : ℕ} (h : ∀ x, v ≤ x → x < v + n → q.byte x = p.byte x) :
    q.bytes v n = p.bytes v n := by
  apply List.map_congr_left
  intro k hk
  exact h _ (by omega) (by have := List.mem_range.mp hk; omega)

theorem getElem?_arena (p : Pool) (v : ℕ) : p.arena[v % p.capacity]? = some (p.byte v) := by
  have hv : v % p.capacity < p.arena.size :=
    lt_of_lt_of_le (Nat.mod_lt v p.capacity_pos) p.capacity_le_size
  simp [byte, Array.getD_eq_getD_getElem?, Array.getElem?_eq_getElem hv]

/-! ### Reading -/

theorem load_eq {p : Pool} {v n : ℕ} (h : v % p.capacity + n ≤ p.capacity) :
    p.load (v % p.capacity) n = .ok (p.bytes v n) := by
  have hc := p.capacity_le_size
  unfold load Span.load
  rw [if_pos (by omega)]
  congr 1
  apply List.ext_getElem?
  intro k
  by_cases hk : k < n
  · have hb := p.getElem?_arena (v + k)
    rw [add_mod_of_lt (by omega)] at hb
    have hr : (p.bytes v n)[k]? = some (p.byte (v + k)) := by
      rw [List.getElem?_eq_getElem (by simpa using hk), getElem_bytes]
    rw [hr, ← hb, Array.getElem?_toList, Array.getElem?_extract, if_pos (by omega)]
  · rw [List.getElem?_eq_none (by simp; omega), List.getElem?_eq_none (by simpa using hk)]

theorem loadAround_eq {p : Pool} {v n : ℕ} (h : n ≤ p.capacity) :
    p.loadAround (v % p.capacity) n = .ok (p.bytes v n) := by
  have hv := Nat.mod_lt v p.capacity_pos
  let first := min (p.capacity - v % p.capacity) n
  have hf : first ≤ p.capacity - v % p.capacity := Nat.min_le_left _ _
  have head : p.load (v % p.capacity) first = .ok (p.bytes v first) := load_eq (by omega)
  have tail : p.load 0 (n - first) = .ok (p.bytes (v + first) (n - first)) := by
    by_cases hn : n - first = 0
    · simp [hn, load, Span.load, bytes]
    · have hm : (v + first) % p.capacity = 0 := by
        have : v + first = v % p.capacity + first + p.capacity * (v / p.capacity) := by
          have := Nat.mod_add_div v p.capacity
          omega
        have hs : v % p.capacity + first = p.capacity := by omega
        rw [this, hs, Nat.add_mul_mod_self_left, Nat.mod_self]
      have := load_eq (p := p) (v := v + first) (n := n - first) (by omega)
      rwa [hm] at this
  have split : p.bytes v n = p.bytes v first ++ p.bytes (v + first) (n - first) := by
    rw [← bytes_add]
    congr 1
    omega
  unfold loadAround
  rw [require_of_true (by omega)]
  change (p.load (v % p.capacity) first >>= fun head => p.load 0 (n - first) >>= fun tail =>
    pure (head ++ tail)) = _
  rw [head, tail, split]
  rfl

/-! ### Writing -/

/-- `q` is `p` with `bs` written at the position `v`. -/
structure Wrote (p q : Pool) (v : ℕ) (bs : List UInt8) : Prop where
  size_eq : q.arena.size = p.arena.size
  priority_eq : q.priority = p.priority
  writeOffset_eq : q.writeOffset = p.writeOffset
  readOffset_eq : q.readOffset = p.readOffset
  live_eq : q.live = p.live
  committed_eq : q.committed = p.committed
  dropped_eq : q.dropped = p.dropped
  written : ∀ k (h : k < bs.length), q.byte (v + k) = bs[k]
  kept : ∀ x, (∀ k < bs.length, (v + k) % p.capacity ≠ x % p.capacity) → q.byte x = p.byte x

namespace Wrote

variable {p q : Pool} {v : ℕ} {bs : List UInt8}

theorem capacity_eq (h : p.Wrote q v bs) : q.capacity = p.capacity := by
  simp only [capacity, h.size_eq]

theorem byte_kept (h : p.Wrote q v bs) {x : ℕ}
    (hx : v + bs.length ≤ x ∧ x < v + p.capacity ∨ x < v ∧ v + bs.length ≤ x + p.capacity) :
    q.byte x = p.byte x := by
  apply h.kept
  intro k hk he
  rcases hx with ⟨h₁, h₂⟩ | ⟨h₁, h₂⟩
  · have := eq_of_mod_eq (a := v) (by omega) (by omega) (by omega) (by omega) he
    omega
  · have := eq_of_mod_eq (a := x) (by omega) (by omega) (by omega) (by omega) he
    omega

theorem bytes_kept (h : p.Wrote q v bs) {x n : ℕ}
    (hx : v + bs.length ≤ x ∧ x + n ≤ v + p.capacity ∨ x + n ≤ v ∧ v + bs.length ≤ x + p.capacity) :
    q.bytes x n = p.bytes x n := by
  apply bytes_congr
  intro y _ _
  apply h.byte_kept
  omega

theorem bytes_written (h : p.Wrote q v bs) {n : ℕ} (hn : bs.length = n) : q.bytes v n = bs := by
  subst hn
  apply List.ext_getElem (by simp)
  intro k hk hb
  rw [getElem_bytes, h.written]

end Wrote

theorem store_spec (p : Pool) (v : ℕ) (bs : List UInt8)
    (h : v % p.capacity + bs.length ≤ p.capacity) :
    ∃ q, p.store (v % p.capacity) bs = .ok q ∧ p.Wrote q v bs := by
  have hc := p.capacity_le_size
  unfold store
  rw [if_pos (show v % p.capacity + bs.length ≤ p.arena.size by omega)]
  refine ⟨_, rfl, by simp, rfl, rfl, rfl, rfl, rfl, rfl, ?_, ?_⟩
  · intro k hk
    simp only [byte, capacity, Span.size_overwrite, Array.getD_eq_getD_getElem?]
    change (Span.overwrite p.arena (v % p.capacity) bs)[(v + k) % p.capacity]?.getD 0 = bs[k]
    rw [add_mod_of_lt (by omega), Span.getElem?_overwrite _ _ _ _ (by omega), if_pos (by omega),
      Nat.add_sub_cancel_left, List.getElem?_eq_getElem hk]
    rfl
  · intro x hx
    simp only [byte, capacity, Span.size_overwrite, Array.getD_eq_getD_getElem?]
    change (Span.overwrite p.arena (v % p.capacity) bs)[x % p.capacity]?.getD 0 =
      p.arena[x % p.capacity]?.getD 0
    rw [Span.getElem?_overwrite _ _ _ _ (by omega), if_neg]
    rintro ⟨hlo, hhi⟩
    apply hx (x % p.capacity - v % p.capacity) (by omega)
    rw [add_mod_of_lt (by omega)]
    omega

theorem Wrote.append {p q r : Pool} {v : ℕ} {as bs : List UInt8} (h : p.Wrote q v as)
    (h' : q.Wrote r (v + as.length) bs) (hn : as.length + bs.length ≤ p.capacity) :
    p.Wrote r v (as ++ bs) where
  size_eq := h'.size_eq.trans h.size_eq
  priority_eq := h'.priority_eq.trans h.priority_eq
  writeOffset_eq := h'.writeOffset_eq.trans h.writeOffset_eq
  readOffset_eq := h'.readOffset_eq.trans h.readOffset_eq
  live_eq := h'.live_eq.trans h.live_eq
  committed_eq := h'.committed_eq.trans h.committed_eq
  dropped_eq := h'.dropped_eq.trans h.dropped_eq
  written := by
    intro k hk
    rw [List.length_append] at hk
    by_cases ha : k < as.length
    · rw [List.getElem_append_left ha, ← h.written k ha]
      apply h'.byte_kept
      rw [h.capacity_eq]
      omega
    · rw [List.getElem_append_right (by omega), ← h'.written (k - as.length) (by omega)]
      congr 1
      omega
  kept := by
    intro x hx
    rw [List.length_append] at hx
    have hq : q.byte x = p.byte x := h.kept x fun k hk => hx k (by omega)
    rw [← hq]
    apply h'.kept
    intro k hk
    rw [h.capacity_eq, Nat.add_assoc]
    exact hx (as.length + k) (by omega)

theorem storeAround_spec (p : Pool) (v : ℕ) (bs : List UInt8) (h : bs.length ≤ p.capacity) :
    ∃ q, p.storeAround (v % p.capacity) bs = .ok q ∧ p.Wrote q v bs := by
  have hv := Nat.mod_lt v p.capacity_pos
  let first := p.capacity - v % p.capacity
  have htake : (bs.take first).length = min first bs.length := List.length_take
  have hdrop : (bs.drop first).length = bs.length - first := List.length_drop
  obtain ⟨q, hq, wq⟩ := store_spec p v (bs.take first) (by omega)
  have second : ∃ r, q.store 0 (bs.drop first) = .ok r ∧
      q.Wrote r (v + (bs.take first).length) (bs.drop first) := by
    by_cases hn : bs.length ≤ first
    · obtain ⟨r, hr, wr⟩ := store_spec q 0 [] (by simp)
      rw [List.drop_eq_nil_of_le hn]
      rw [Nat.zero_mod] at hr
      exact ⟨r, hr, wr.size_eq, wr.priority_eq, wr.writeOffset_eq, wr.readOffset_eq, wr.live_eq,
        wr.committed_eq, wr.dropped_eq, by simp, fun x _ => wr.kept x (by simp)⟩
    · have hm : (v + (bs.take first).length) % q.capacity = 0 := by
        have he : v + (bs.take first).length = p.capacity + p.capacity * (v / p.capacity) := by
          have := Nat.mod_add_div v p.capacity
          omega
        rw [he, wq.capacity_eq, Nat.add_mul_mod_self_left, Nat.mod_self]
      have := store_spec q (v + (bs.take first).length) (bs.drop first)
        (by rw [hm, wq.capacity_eq]; omega)
      rwa [hm] at this
  obtain ⟨r, hr, wr⟩ := second
  refine ⟨r, ?_, ?_⟩
  · unfold storeAround
    rw [require_of_true (by omega)]
    change (p.store (v % p.capacity) (bs.take first) >>= fun q => q.store 0 (bs.drop first)) = _
    rw [hq]
    exact hr
  · have := wq.append wr (by omega)
    rwa [List.take_append_drop] at this

theorem wrap_eq (p : Pool) {v d : ℕ} (h : d ≤ p.capacity) :
    p.wrap (v % p.capacity + d) = (v + d) % p.capacity := by
  have hv := Nat.mod_lt v p.capacity_pos
  unfold wrap
  rw [← Nat.mod_add_mod v]
  generalize v % p.capacity = o at hv
  split_ifs with hc
  · rw [Nat.mod_eq_sub_mod hc, Nat.mod_eq_of_lt (by omega)]
  · rw [Nat.mod_eq_of_lt (by omega)]

/-! ### The fields of a record -/

section Fields

variable {p : Pool} {v : ℕ} (hv : v % p.capacity + payloadOffset ≤ p.capacity)
include hv

private theorem field_position {d n : ℕ} (h : d + n ≤ payloadOffset) (hn : 0 < n) :
    (v + d) % p.capacity = v % p.capacity + d ∧ (v + d) % p.capacity + n ≤ p.capacity := by
  rw [add_mod_of_lt (by omega)]
  omega

theorem linkAt_eq : p.linkAt (v % p.capacity) = .ok (Word.ofBytes (p.bytes v 4)).toNat := by
  obtain ⟨-, h⟩ := field_position hv (d := 0) (n := 4) (by decide) (by decide)
  simp only [linkAt, loadWord, load_eq (v := v) (n := 4) h]
  rfl

theorem stateAt_eq :
    p.stateAt (v % p.capacity) = .ok (State.ofWord (Word.ofBytes (p.bytes (v + 4) 4))) := by
  obtain ⟨he, h⟩ := field_position hv (d := 4) (n := 4) (by decide) (by decide)
  simp only [stateAt, loadWord, ← he, load_eq (v := v + 4) (n := 4) h]
  rfl

theorem headerAt_eq :
    p.headerAt (v % p.capacity) = .ok (Header.decode (p.bytes (v + linkSize) Header.size)) := by
  obtain ⟨he, h⟩ := field_position hv (d := linkSize) (n := Header.size) (by decide) (by decide)
  simp only [headerAt, ← he, load_eq (v := v + linkSize) (n := Header.size) h]
  rfl

theorem setLink_spec (next : ℕ) :
    ∃ q, p.setLink (v % p.capacity) next = .ok q ∧ p.Wrote q v (Word.toBytes (.ofNat next)) := by
  obtain ⟨-, h⟩ := field_position hv (d := 0) (n := 4) (by decide) (by decide)
  exact store_spec _ _ _ h

theorem setState_spec (s : State) :
    ∃ q, p.setState (v % p.capacity) s = .ok q ∧ p.Wrote q (v + 4) (Word.toBytes s.toWord) := by
  obtain ⟨he, h⟩ := field_position hv (d := 4) (n := 4) (by decide) (by decide)
  simp only [setState, storeWord, ← he]
  exact store_spec _ _ _ h

theorem setHeaderAt_spec (h : Header) :
    ∃ q, p.setHeaderAt (v % p.capacity) h = .ok q ∧ p.Wrote q (v + linkSize) h.encode := by
  obtain ⟨he, hb⟩ := field_position hv (d := linkSize) (n := Header.size) (by decide) (by decide)
  simp only [setHeaderAt, ← he]
  exact store_spec _ _ _ hb

end Fields

end EtherBuffer.Pool
