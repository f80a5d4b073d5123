import EtherBuffer.Pool.Access
import EtherBuffer.Pool.Reservation
import EtherBuffer.Proofs.Pool.Integrity

/-! What operations leave alone in any pool, whatever bytes its arena has. -/
namespace EtherBuffer
open Record

theorem require_eq_ok_iff {rule : Prop} [Decidable rule] {f : Fault} {u : Unit} :
    require rule f = .ok u ↔ rule := by
  unfold require
  split_ifs with h <;> simp [h]

theorem bind_eq_error_iff {ε α β : Type} {x : Except ε α} {f : α → Except ε β} {e : ε} :
    (x >>= f) = .error e ↔ x = .error e ∨ ∃ a, x = .ok a ∧ f a = .error e := by
  cases x <;> simp

namespace Pool

/-- Only bytes of the arena are different. -/
structure Overwritten (p q : Pool) : Prop where
  size_eq : q.arena.size = p.arena.size
  priority_eq : q.priority = p.priority
  writeOffset_eq : q.writeOffset = p.writeOffset
  readOffset_eq : q.readOffset = p.readOffset
  live_eq : q.live = p.live

namespace Overwritten

variable {p q r : Pool}

theorem refl (p : Pool) : p.Overwritten p :=
  ⟨rfl, rfl, rfl, rfl, rfl⟩

theorem trans (h : p.Overwritten q) (h' : q.Overwritten r) : p.Overwritten r where
  size_eq := h'.size_eq.trans h.size_eq
  priority_eq := h'.priority_eq.trans h.priority_eq
  writeOffset_eq := h'.writeOffset_eq.trans h.writeOffset_eq
  readOffset_eq := h'.readOffset_eq.trans h.readOffset_eq
  live_eq := h'.live_eq.trans h.live_eq

theorem capacity_eq (h : p.Overwritten q) : q.capacity = p.capacity := by
  simp only [capacity, h.size_eq]

theorem freeSpace_eq (h : p.Overwritten q) : q.freeSpace = p.freeSpace := by
  simp only [freeSpace, h.live_eq, h.capacity_eq, h.writeOffset_eq, h.readOffset_eq]

end Overwritten

/-- Only bytes of the arena and the end at which records are released are different. -/
structure Pinned (p q : Pool) : Prop where
  size_eq : q.arena.size = p.arena.size
  priority_eq : q.priority = p.priority
  writeOffset_eq : q.writeOffset = p.writeOffset
  readOffset_lt : p.readOffset < p.capacity → q.readOffset < q.capacity

namespace Pinned

variable {p q r : Pool}

theorem refl (p : Pool) : p.Pinned p :=
  ⟨rfl, rfl, rfl, id⟩

theorem trans (h : p.Pinned q) (h' : q.Pinned r) : p.Pinned r where
  size_eq := h'.size_eq.trans h.size_eq
  priority_eq := h'.priority_eq.trans h.priority_eq
  writeOffset_eq := h'.writeOffset_eq.trans h.writeOffset_eq
  readOffset_lt := h'.readOffset_lt ∘ h.readOffset_lt

theorem capacity_eq (h : p.Pinned q) : q.capacity = p.capacity := by
  simp only [capacity, h.size_eq]

end Pinned

theorem Overwritten.pinned {p q : Pool} (h : p.Overwritten q) : p.Pinned q where
  size_eq := h.size_eq
  priority_eq := h.priority_eq
  writeOffset_eq := h.writeOffset_eq
  readOffset_lt := by rw [h.readOffset_eq, h.capacity_eq]; exact id

section Operations

variable {p q : Pool} {pos : ℕ} {bytes : List UInt8} {handle : Handle}

theorem overwritten_store (h : p.store pos bytes = .ok q) : p.Overwritten q := by
  unfold store at h
  split_ifs at h
  obtain rfl := Except.ok.inj h
  exact ⟨Span.size_overwrite _ _ _, rfl, rfl, rfl, rfl⟩

theorem overwritten_storeAround (h : p.storeAround pos bytes = .ok q) : p.Overwritten q := by
  unfold storeAround at h
  obtain ⟨-, -, h⟩ := bind_eq_ok_iff.mp h
  obtain ⟨u, hu, h⟩ := bind_eq_ok_iff.mp h
  exact (overwritten_store hu).trans (overwritten_store h)

theorem overwritten_setHeader {header : Header} (h : p.setHeader handle header = .ok q) :
    p.Overwritten q :=
  overwritten_store h

theorem overwritten_updateHeader {f : Header → Header} (h : p.updateHeader handle f = .ok q) :
    p.Overwritten q := by
  obtain ⟨header, -, h⟩ := bind_eq_ok_iff.mp h
  exact overwritten_setHeader h

theorem overwritten_takeShare {n : UInt32} (h : p.takeShare handle = .ok (q, n)) :
    p.Overwritten q := by
  unfold takeShare at h
  obtain ⟨header, -, h⟩ := bind_eq_ok_iff.mp h
  split_ifs at h
  · obtain ⟨rfl, -⟩ := Prod.mk.inj (Except.ok.inj h)
    exact .refl p
  · obtain ⟨u, hu, h⟩ := bind_eq_ok_iff.mp h
    obtain ⟨rfl, -⟩ := Prod.mk.inj (Except.ok.inj h)
    exact overwritten_setHeader hu

theorem overwritten_write {res res' : Reservation} {fits : Bool}
    (h : p.write res bytes = .ok (q, res', fits)) :
    p.Overwritten q ∧ ∀ r', res' = .region r' → ∃ r, res = .region r ∧ r' = r.extend bytes := by
  cases res with
  | sink n =>
    obtain ⟨rfl, hres⟩ := Prod.mk.inj (Except.ok.inj h)
    obtain ⟨rfl, -⟩ := Prod.mk.inj hres
    exact ⟨.refl p, fun r' hr => Reservation.noConfusion hr⟩
  | region r =>
    obtain ⟨u, hu, h⟩ := bind_eq_ok_iff.mp h
    obtain ⟨rfl, hres⟩ := Prod.mk.inj (Except.ok.inj h)
    obtain ⟨rfl, -⟩ := Prod.mk.inj hres
    exact ⟨overwritten_storeAround hu, fun r' hr => ⟨r, rfl, (Reservation.region.inj hr).symm⟩⟩

theorem pinned_drop (p : Pool) : p.Pinned p.drop :=
  ⟨rfl, rfl, rfl, id⟩

theorem pinned_dropOldest (h : p.dropOldest = .ok q) : p.Pinned q := by
  unfold dropOldest at h
  obtain ⟨next, -, h⟩ := bind_eq_ok_iff.mp h
  obtain ⟨_, hnext, h⟩ := bind_eq_ok_iff.mp h
  obtain ⟨u, hu, h⟩ := bind_eq_ok_iff.mp h
  obtain ⟨-, -, h⟩ := bind_eq_ok_iff.mp h
  obtain rfl := Except.ok.inj h
  have hw : p.Overwritten u := overwritten_store hu
  refine ⟨hw.size_eq, hw.priority_eq, hw.writeOffset_eq, fun _ => ?_⟩
  change next < u.capacity
  rw [hw.capacity_eq]
  exact require_eq_ok_iff.mp hnext

theorem pinned_dropFreed {n : ℕ} (h : p.dropFreed n = .ok q) : p.Pinned q := by
  induction n generalizing p with
  | zero =>
    obtain rfl := Except.ok.inj h
    exact .refl p
  | succ n ih =>
    rw [dropFreed] at h
    obtain ⟨state, -, h⟩ := bind_eq_ok_iff.mp h
    split_ifs at h
    · obtain ⟨u, hu, h⟩ := bind_eq_ok_iff.mp h
      exact (pinned_dropOldest hu).trans (ih h)
    · obtain rfl := Except.ok.inj h
      exact .refl p

theorem pinned_free (h : p.free handle = .ok q) : p.Pinned q := by
  unfold free at h
  obtain ⟨-, -, h⟩ := bind_eq_ok_iff.mp h
  obtain ⟨state, -, h⟩ := bind_eq_ok_iff.mp h
  obtain ⟨-, -, h⟩ := bind_eq_ok_iff.mp h
  split_ifs at h
  · exact (overwritten_store h).pinned
  · obtain ⟨u, hu, h⟩ := bind_eq_ok_iff.mp h
    exact (pinned_dropOldest hu).trans (pinned_dropFreed h)

theorem store_error {e : Fault} (h : p.store pos bytes = .error e) : e = .outOfRange := by
  unfold store at h
  split_ifs at h
  exact (Except.error.inj h).symm

/-- A commit is stopped as stale exactly when the write position is not where the region starts. -/
theorem publish_stale_iff {r : Region} {header : Header} :
    p.publish r header = .error .staleReservation ↔ p.writeOffset ≠ r.offset := by
  constructor
  · intro h he
    unfold publish at h
    rw [require_of_true he.symm, ok_bind] at h
    -- The stores are faulty only when they leave the arena.
    rcases bind_eq_error_iff.mp h with h | ⟨u, -, h⟩
    · cases store_error h
    rcases bind_eq_error_iff.mp h with h | ⟨v, -, h⟩
    · cases store_error h
    rcases bind_eq_error_iff.mp h with h | ⟨w, -, h⟩
    · cases store_error h
    cases h
  · intro hne
    unfold publish
    rw [require_of_false (Ne.symm hne), error_bind]

theorem commit_stale_iff {r : Region} (ho : r.overflowed = false) {header : Header} :
    p.commit (.region r) header = .error .staleReservation ↔ p.writeOffset ≠ r.offset := by
  have hpublish : p.publish r header = .error .staleReservation ↔ p.writeOffset ≠ r.offset :=
    publish_stale_iff
  rw [← hpublish, commit, ho, if_neg Bool.false_ne_true]
  cases p.publish r header <;> simp [Except.map]

/-- A record is committed where the write position is. -/
structure Committed (p q : Pool) (r : Region) (handle : Handle) : Prop where
  offset_eq : p.writeOffset = r.offset
  handle_eq : handle = .at p.priority r.offset
  size_eq : q.arena.size = p.arena.size
  priority_eq : q.priority = p.priority
  readOffset_eq : q.readOffset = p.readOffset
  writeOffset_eq : q.writeOffset = p.nextStart (r.offset + extent r.written)

namespace Committed

variable {r : Region}

theorem capacity_eq (h : p.Committed q r handle) : q.capacity = p.capacity := by
  simp only [capacity, h.size_eq]

theorem writeOffset_lt (h : p.Committed q r handle) (hlt : p.writeOffset < p.capacity)
    (hroom : payloadOffset + r.written ≤ p.capacity) : q.writeOffset < q.capacity := by
  have hext : extent r.written ≤ p.capacity := extent_le hroom p.capacity_mod
  rw [h.writeOffset_eq, h.capacity_eq, ← h.offset_eq, ← Nat.mod_eq_of_lt hlt, p.nextStart_eq hext]
  exact Nat.mod_lt _ p.capacity_pos

end Committed

theorem committed_publish {r : Region} {header : Header}
    (h : p.publish r header = .ok (q, handle)) : p.Committed q r handle := by
  unfold publish at h
  obtain ⟨_, hoff, h⟩ := bind_eq_ok_iff.mp h
  obtain ⟨u, hu, h⟩ := bind_eq_ok_iff.mp h
  obtain ⟨v, hv, h⟩ := bind_eq_ok_iff.mp h
  obtain ⟨w, hw, h⟩ := bind_eq_ok_iff.mp h
  obtain ⟨rfl, rfl⟩ := Prod.mk.inj (Except.ok.inj h)
  have hall : p.Overwritten w :=
    ((overwritten_store hu).trans (overwritten_store hv)).trans (overwritten_store hw)
  exact ⟨(require_eq_ok_iff.mp hoff).symm, rfl, hall.size_eq, hall.priority_eq, hall.readOffset_eq,
    rfl⟩

theorem commit_cases {res : Reservation} {header : Header} {answer : Option Handle}
    (h : p.commit res header = .ok (q, answer)) :
    q = p.drop ∧ answer = none ∨ ∃ r k, res = .region r ∧ r.overflowed = false ∧
      answer = some k ∧ p.Committed q r k := by
  cases res with
  | sink n =>
    obtain ⟨rfl, rfl⟩ := Prod.mk.inj (Except.ok.inj h)
    exact Or.inl ⟨rfl, rfl⟩
  | region r =>
    rw [commit] at h
    split_ifs at h with ho
    · obtain ⟨rfl, rfl⟩ := Prod.mk.inj (Except.ok.inj h)
      exact Or.inl ⟨rfl, rfl⟩
    · cases hp : p.publish r header with
      | error e => simp [hp, Except.map] at h
      | ok a =>
        obtain ⟨u, k⟩ := a
        rw [hp] at h
        obtain ⟨rfl, rfl⟩ := Prod.mk.inj (Except.ok.inj h)
        exact Or.inr ⟨r, k, rfl, by simpa using ho, rfl, committed_publish hp⟩

end Operations

end Pool

namespace Session

variable {p : Pool} {receipts : List Receipt} {s : Session}

theorem onRecord_pinned {i : ℕ} {run : Receipt → Except Fault Pool} {note : Receipt → Receipt}
    (h : (Session.mk p none receipts).onRecord i run note = .ok s)
    (hrun : ∀ r q, run r = .ok q → p.Pinned q)
    (hnote : ∀ r, (note r).handle = r.handle ∧ (note r).payload = r.payload) :
    p.Pinned s.pool ∧ s.receipts.map (fun r => (r.handle, r.payload)) =
      receipts.map fun r => (r.handle, r.payload) := by
  unfold onRecord at h
  cases hi : receipts[i]? with
  | none =>
    rw [hi] at h
    obtain rfl := Except.ok.inj h
    exact ⟨.refl p, rfl⟩
  | some r =>
    rw [hi] at h
    obtain ⟨q, hq, h⟩ := bind_eq_ok_iff.mp h
    obtain rfl := Except.ok.inj h
    obtain ⟨hlt, rfl⟩ := List.getElem?_eq_some_iff.mp hi
    refine ⟨hrun _ _ hq, ?_⟩
    have hlt' : i < (receipts.map fun r => (r.handle, r.payload)).length := by simpa using hlt
    have hsame : ((note receipts[i]).handle, (note receipts[i]).payload) =
        (receipts.map fun r => (r.handle, r.payload))[i] := by
      rw [List.getElem_map, (hnote _).1, (hnote _).2]
    rw [List.map_set, hsame, List.set_getElem_self]

theorem step_pinned {o : Request} (h : (Session.mk p none receipts).step o = .ok s) :
    p.Pinned s.pool ∧ s.receipts.map (fun r => (r.handle, r.payload)) =
      receipts.map fun r => (r.handle, r.payload) := by
  cases o with
  | reserve | write bytes | commit header =>
    obtain rfl := Except.ok.inj h
    exact ⟨.refl p, rfl⟩
  | reserveAtLeast n =>
    obtain ⟨res, -, h⟩ := bind_eq_ok_iff.mp h
    cases res <;> obtain rfl := Except.ok.inj h <;> exact ⟨.refl p, rfl⟩
  | setHeader i header =>
    exact onRecord_pinned h (fun _ _ hq => (Pool.overwritten_setHeader hq).pinned)
      fun _ => ⟨rfl, rfl⟩
  | updateHeader i f =>
    exact onRecord_pinned h (fun _ _ hq => (Pool.overwritten_updateHeader hq).pinned)
      fun _ => ⟨rfl, rfl⟩
  | takeShare i =>
    refine onRecord_pinned h (fun r q hq => ?_) fun r => ⟨r.taken_handle, taken_payload r⟩
    cases hs : p.takeShare r.handle with
    | error e => simp [hs] at hq
    | ok a =>
      rw [hs] at hq
      obtain rfl := Except.ok.inj hq
      exact (Pool.overwritten_takeShare hs).pinned
  | free i => exact onRecord_pinned h (fun _ _ hq => Pool.pinned_free hq) fun _ => ⟨rfl, rfl⟩

theorem onRecord_draft {i : ℕ} {run : Receipt → Except Fault Pool} {note : Receipt → Receipt}
    (d : Draft) (h : (Session.mk p none receipts).onRecord i run note = .ok s) :
    (Session.mk p (some d) receipts).onRecord i run note = .ok { s with draft := some d } := by
  unfold onRecord at h ⊢
  cases hi : receipts[i]? with
  | none =>
    rw [hi] at h
    obtain rfl := Except.ok.inj h
    rfl
  | some r =>
    rw [hi] at h
    obtain ⟨q, hq, h⟩ := bind_eq_ok_iff.mp h
    obtain rfl := Except.ok.inj h
    simp only [hq]
    rfl

theorem step_draft {o : Request} (d : Draft) (ho : (Session.mk p none receipts).Allows o)
    (h : (Session.mk p none receipts).step o = .ok s) :
    s.pool = p ∧ s.receipts = receipts ∨
      (Session.mk p (some d) receipts).step o = .ok { s with draft := some d } := by
  cases o with
  | reserve =>
    obtain rfl := Except.ok.inj h
    exact Or.inl ⟨rfl, rfl⟩
  | reserveAtLeast n =>
    obtain ⟨res, -, h⟩ := bind_eq_ok_iff.mp h
    cases res <;> obtain rfl := Except.ok.inj h <;> exact Or.inl ⟨rfl, rfl⟩
  | write bytes | commit header => exact absurd ho Bool.false_ne_true
  | setHeader i header | updateHeader i f | takeShare i | free i =>
    exact Or.inr (onRecord_draft d h)

end Session

end EtherBuffer
