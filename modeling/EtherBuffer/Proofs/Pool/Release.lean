import EtherBuffer.Proofs.Pool.Access

/-! Releasing records in any order. -/
namespace EtherBuffer.Pool
open Record

namespace Holds

variable {p : Pool} {base : ℕ} {rs as bs : List Receipt} {r : Receipt}

theorem dropOldest_spec (h : p.Holds base (r :: rs)) :
    ∃ q, p.dropOldest = .ok q ∧ q.Holds (r.after p.capacity base) rs ∧
      p.Steady q (Receipt.stop p.capacity base (r :: rs)) (base + p.capacity) := by
  have h₀ : p.Holds base ([] ++ r :: rs) := h
  have hlink := h₀.linkAt_handle
  have hpos := h₀.position_eq
  have hfit := h₀.fields_fit
  have hnext := Nat.mod_lt (r.after p.capacity base) p.capacity_pos
  have hend := r.le_after p.capacity base
  have hstop := Receipt.le_stop p.capacity (r.after p.capacity base) rs
  have hle := h.stop_le
  have h44 : payloadOffset = 44 := rfl
  obtain ⟨-, -, hchain⟩ := h.chain
  rw [Receipt.stop_nil] at hlink hpos hfit
  rw [hpos] at hlink
  obtain ⟨q, hq, hw⟩ := setState_spec hfit .empty
  have hc := hw.capacity_eq
  have hl : q.live = rs.length + 1 := by rw [hw.live_eq, h.live_eq, List.length_cons]
  have l : (Word.toBytes State.empty.toWord).length = 4 := rfl
  rw [Receipt.stop_cons] at *
  have hst : p.Steady q (Receipt.stop p.capacity (r.after p.capacity base) rs)
      (base + p.capacity) := hw.steady (by omega)
  refine ⟨{ q with
    readOffset := r.after p.capacity base % p.capacity, live := q.live - 1 }, ?_, ?_, ?_⟩
  · unfold dropOldest
    rw [h.readOffset_eq, hlink, ok_bind, require_of_true hnext, ok_bind, hq, ok_bind,
      require_of_true (by omega)]
    rfl
  · constructor
    · exact hchain.congr hc hw.priority_eq fun x hx hx' => hw.byte_kept (by omega)
    · change r.after p.capacity base % p.capacity = r.after p.capacity base % q.capacity
      rw [hc]
    · change q.writeOffset = Receipt.stop q.capacity _ _ % q.capacity
      rw [hw.writeOffset_eq, h.writeOffset_eq, hc, Receipt.stop_cons]
    · change Receipt.stop q.capacity _ _ ≤ _ + q.capacity
      rw [hc]
      omega
    · change q.live - 1 = _
      omega
    · change q.arena.size < _
      rw [hw.size_eq]
      exact h.small
  · exact ⟨hst.1, hst.2, hst.3, hst.4, hst.5, hst.6⟩

theorem dropFreed_spec (h : p.Holds base rs) :
    ∃ q base', p.dropFreed rs.length = .ok q ∧ q.Holds base' (rs.dropWhile (·.isReleased)) ∧
      base ≤ base' ∧
      Receipt.stop p.capacity base' (rs.dropWhile (·.isReleased)) =
        Receipt.stop p.capacity base rs ∧
      p.Steady q (Receipt.stop p.capacity base rs) (base + p.capacity) := by
  induction rs generalizing p base with
  | nil => exact ⟨p, base, rfl, h, le_rfl, rfl, .refl _ _ _⟩
  | cons r rs ih =>
    have h₀ : p.Holds base ([] ++ r :: rs) := h
    have hstate := h₀.stateAt_handle
    rw [h₀.position_eq, Receipt.stop_nil, ← h.readOffset_eq] at hstate
    rw [List.length_cons, dropFreed, hstate, ok_bind, Receipt.state]
    cases hr : r.isReleased with
    | false =>
      rw [if_neg (by simp), List.dropWhile_cons_of_neg (by simp [hr])]
      exact ⟨p, base, rfl, h, le_rfl, rfl, .refl _ _ _⟩
    | true =>
      obtain ⟨q, hq, hq', hst⟩ := h.dropOldest_spec
      obtain ⟨s, base', hs, hs', hb, he, hst'⟩ := ih hq'
      have hend := r.le_after p.capacity base
      rw [if_pos (by simp), hq, ok_bind, List.dropWhile_cons_of_pos hr, Receipt.stop_cons]
      rw [hst.capacity_eq] at he hst'
      refine ⟨s, base', hs, hs', by omega, he, hst.trans ⟨hst'.1, hst'.2, hst'.3, hst'.4, hst'.5, ?_⟩⟩
      intro x hx hx'
      exact hst'.byte_eq x hx (by omega)

/-- Releasing a record marks it, and the marked records at the front go. -/
theorem free_spec (h : p.Holds base (as ++ r :: bs)) (hr : r.isReleased = false)
    (hfirst : ∀ t ∈ as.head?, t.isReleased = false) :
    ∃ q base', p.free r.handle = .ok q ∧
      q.Holds base' ((as ++ r.release :: bs).dropWhile (·.isReleased)) ∧ base ≤ base' ∧
      Receipt.stop p.capacity base' ((as ++ r.release :: bs).dropWhile (·.isReleased)) =
        Receipt.stop p.capacity base (as ++ r :: bs) ∧
      p.Steady q (Receipt.stop p.capacity base (as ++ r :: bs)) (base + p.capacity) := by
  have hstate := h.stateAt_handle
  have hprio : r.handle.priority = p.priority := by rw [h.at_record.2.2.1.handle]; rfl
  have hpos := h.position_eq
  have hrel : r.release.isReleased = true := by simp [Receipt.release, Receipt.isReleased]
  rw [Receipt.state, hr, if_neg (by simp)] at hstate
  rw [free, require_of_true hprio, ok_bind, hstate, ok_bind, require_of_true rfl, ok_bind]
  cases as with
  | nil =>
    -- The record is the oldest one, and goes with those behind it that were marked.
    rw [List.nil_append] at h ⊢
    rw [Receipt.stop_nil] at hpos
    obtain ⟨q, hq, hq', hst⟩ := h.dropOldest_spec
    obtain ⟨s, base', hs, hs', hb, he, hst'⟩ := hq'.dropFreed_spec
    have hend := r.le_after p.capacity base
    rw [if_neg (by rw [hpos, h.readOffset_eq]; exact not_not_intro rfl), hq, ok_bind, hq'.live_eq,
      List.nil_append, List.dropWhile_cons_of_pos hrel, Receipt.stop_cons]
    rw [hst.capacity_eq] at he hst'
    refine ⟨s, base', hs, hs', by omega, he, hst.trans ⟨hst'.1, hst'.2, hst'.3, hst'.4, hst'.5, ?_⟩⟩
    intro x hx hx'
    exact hst'.byte_eq x hx (by omega)
  | cons t as =>
    -- An older record is in use, so that only the state word is written.
    obtain ⟨hbase, -, hstored, hstop⟩ := h.at_record
    have hlt := Receipt.lt_stop_cons p.capacity base t as
    have hend := r.le_after p.capacity (Receipt.stop p.capacity base (t :: as))
    have hle := h.stop_le
    have h44 : payloadOffset = 44 := rfl
    have hs8 : linkSize = 8 ∧ Header.size = 36 := ⟨rfl, rfl⟩
    have hne : r.handle.position ≠ p.readOffset := by
      rw [hpos, h.readOffset_eq]
      intro he
      have := eq_of_mod_eq (a := base) hbase (by omega) le_rfl (by omega) he
      omega
    obtain ⟨q, hq, hw⟩ := setState_spec h.fields_fit .freed
    have hc := hw.capacity_eq
    have l : (Word.toBytes State.freed.toWord).length = 4 := rfl
    have hdw : (t :: as ++ r.release :: bs).dropWhile (·.isReleased) =
        t :: as ++ r.release :: bs :=
      List.dropWhile_cons_of_neg (by simp [hfirst t rfl])
    rw [if_pos hne, hpos, hdw]
    refine ⟨q, base, hq, h.update hw (by omega) (by omega) ?_ rfl, le_rfl, ?_, hw.steady (by omega)⟩
    · generalize Receipt.stop p.capacity base (t :: as) = v at *
      constructor
      · rw [hw.priority_eq, hc]
        exact hstored.handle
      · rw [hw.bytes_kept (by omega), hc]
        exact hstored.link
      · rw [hw.bytes_written l, Word.ofBytes_toBytes, State.ofWord_toWord, Receipt.state, hrel,
          if_pos rfl]
      · rw [hw.bytes_kept (by omega)]
        exact hstored.header
      · change q.bytes (v + payloadOffset) r.payload.length = r.payload
        rw [hw.bytes_kept (by omega), hstored.payload]
    · exact Receipt.stop_congr _ (by simp [Receipt.release]) _

end Holds

end EtherBuffer.Pool
