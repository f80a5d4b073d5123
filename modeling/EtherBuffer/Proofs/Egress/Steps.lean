import EtherBuffer.Egress.Scheduler
import Mathlib.Data.Fin.Basic

/-! What the operations of the scheduler change. -/
namespace EtherBuffer

theorem vector_get_set {α : Type} {n : ℕ} (v : Vector α n) (i j : Fin n) (x : α) :
    (v.set i x i.isLt).get j = if i = j then x else v.get j := by
  change (v.set i x i.isLt)[j.val] = if i = j then x else v[j.val]
  rw [Vector.getElem_set]
  simp only [Fin.ext_iff]

namespace SlotQueue

variable {n : ℕ} {q q' : SlotQueue n} {P : Handle → Prop} {h : Handle}

def All (P : Handle → Prop) (q : SlotQueue n) : Prop :=
  ∀ i h, q.slots.get i = some h → P h

theorem All.peek (hq : q.All P) (hp : q.peek = some h) : P h :=
  hq q.readIndex h hp

variable [Positive n]

theorem all_empty (n : ℕ) [Positive n] (P : Handle → Prop) : (empty n).All P := by
  intro i h hi
  have hnone : (empty n).slots.get i = none := Vector.getElem_replicate _
  rw [hnone] at hi
  cases hi

theorem All.add (hq : q.All P) (hh : P h) (ha : q.add h = .ok q') : q'.All P := by
  unfold SlotQueue.add at ha
  split_ifs at ha
  obtain rfl := Except.ok.inj ha
  intro i x hx
  rw [vector_get_set] at hx
  split_ifs at hx
  · obtain rfl := Option.some.inj hx
    exact hh
  · exact hq i x hx

theorem All.freeIndex (hq : q.All P) {index : ℕ} (hf : q.freeIndex index = .ok q') : q'.All P := by
  unfold SlotQueue.freeIndex at hf
  have hset : ∀ i x, (q.slots.set (Fin.ofNat n index) none (Fin.ofNat n index).isLt).get i = some x →
      P x := by
    intro i x hx
    rw [vector_get_set] at hx
    split_ifs at hx
    exact hq i x hx
  dsimp only at hf
  split_ifs at hf <;> obtain rfl := Except.ok.inj hf <;> exact hset

end SlotQueue

namespace Egress.Scheduler

open Link

variable {clients depth stamps : ℕ} {s s' : Scheduler clients depth stamps} {client : ℕ}
  {h : Handle} {sel : Selection} {p : Priority}

/-- Each frame is in a queue of its class. -/
def Sorted (s : Scheduler clients depth stamps) : Prop :=
  ∀ p i, ((s.queues.get p).get i).All (·.priority = p)

theorem Sorted.peek (hs : s.Sorted) (hp : s.peek p = some sel) : sel.handle.priority = p := by
  obtain ⟨i, -, hi⟩ := List.exists_of_findSome?_eq_some hp
  obtain ⟨x, hx, rfl⟩ := Option.map_eq_some_iff.mp hi
  exact (hs p i).peek hx

theorem get_setQueue (s : Scheduler clients depth stamps) (p p' : Priority) (i j : Fin clients)
    (q : SlotQueue depth) : ((s.setQueue p i q).queues.get p').get j =
      if p = p' ∧ i = j then q else (s.queues.get p').get j := by
  unfold setQueue
  by_cases hp : p = p'
  · subst hp
    rw [PerPriority.get_set, vector_get_set]
    simp only [true_and]
  · rw [PerPriority.get_set_of_ne _ _ hp, if_neg fun hc => hp hc.1]

theorem Sorted.setQueue (hs : s.Sorted) {i : Fin clients} {q : SlotQueue depth}
    (hq : q.All (·.priority = p)) : (s.setQueue p i q).Sorted := by
  intro p' j
  rw [get_setQueue]
  split_ifs with hc
  · rw [← hc.1]
    exact hq
  · exact hs p' j

theorem canSend_eq (s : Scheduler clients depth stamps) (p : Priority) (hc : client < clients) :
    s.canSend client p = !((s.queues.get p).get ⟨client, hc⟩).isFull := by
  unfold canSend
  rw [Vector.getElem?_eq_getElem hc]
  rfl

theorem client_lt_of_canSend (h : s.canSend client p = true) : client < clients := by
  by_contra hc
  rw [canSend, Vector.getElem?_eq_none (Nat.not_lt.mp hc)] at h
  cases h

theorem exists_charge_eq (s : Scheduler clients depth stamps) (p : Priority) (line : Line)
    (length : UInt32) : ∃ shaper, s.charge p line length = { s with shaper } := by
  unfold charge
  split_ifs
  · exact ⟨_, rfl⟩
  · exact ⟨_, rfl⟩

theorem charge_eq (s : Scheduler clients depth stamps) (p : Priority) {line : Line}
    (hl : line.shaperEnabled = true) (length : UInt32) : s.charge p line length =
      { s with shaper := if p = .high then s.shaper.spend length else s.shaper } := by
  unfold charge
  simp only [hl, and_true]
  split_ifs <;> rfl

theorem report_eq (s : Scheduler clients depth stamps) (stampId time : UInt32) :
    ∃ departures stampsDropped,
      s.report stampId time = { s with departures, stampsDropped } := by
  unfold report
  split_ifs
  · exact ⟨_, _, rfl⟩
  · split <;> exact ⟨_, _, rfl⟩

theorem report_shaper (s : Scheduler clients depth stamps) (shaper : Shaper)
    (stampId time : UInt32) : { s with shaper }.report stampId time =
      { s with
        shaper
        departures := (s.report stampId time).departures
        stampsDropped := (s.report stampId time).stampsDropped } := by
  unfold report
  split_ifs
  · rfl
  · dsimp only
    split <;> rfl

theorem exists_select_eq (s : Scheduler clients depth stamps) (line : Line) (now : UInt32) :
    ∃ shaper armed, (s.select line now).1 = { s with shaper, armed } := by
  unfold select
  dsimp only
  split_ifs <;> exact ⟨_, _, rfl⟩

theorem select_eq (s : Scheduler clients depth stamps) {line : Line}
    (hl : line.shaperEnabled = true) (now : UInt32) : s.select line now =
      let gated := (if s.armed then s.shaper else .restart now).gate line now (s.peek .high)
      ({ s with shaper := gated.1, armed := true }, gated.2 <|> s.peek .low) := by
  unfold select
  rw [if_pos hl]
  cases ha : s.armed
  · rfl
  · simp only [if_pos, ha]
    rfl

variable [Positive depth]

theorem sorted_empty : (empty clients depth stamps).Sorted := by
  intro p i
  have hq : (((empty clients depth stamps).queues.get p).get i) = .empty depth := by
    cases p <;> exact Vector.getElem_replicate _
  rw [hq]
  exact SlotQueue.all_empty depth _

theorem enqueue_eq (he : s.enqueue client h = .ok s') :
    ∃ (i : Fin clients) (q : SlotQueue depth), i.val = client ∧
      ((s.queues.get h.priority).get i).add h = .ok q ∧ s' = s.setQueue h.priority i q := by
  unfold enqueue at he
  split_ifs at he with hc
  split at he
  · rename_i q hq
    exact ⟨⟨client, hc⟩, q, rfl, hq, (Except.ok.inj he).symm⟩
  · cases he

theorem Sorted.enqueue (hs : s.Sorted) (he : s.enqueue client h = .ok s') :
    s'.Sorted ∧ s'.shaper = s.shaper ∧ s'.armed = s.armed := by
  obtain ⟨i, q, -, hq, rfl⟩ := enqueue_eq he
  exact ⟨hs.setQueue ((hs h.priority i).add rfl hq), rfl, rfl⟩

theorem enqueueCommitted_cases (s : Scheduler clients depth stamps) (client : ℕ)
    (committed : Option Handle) : (s.enqueueCommitted client committed).1 = s ∨
      ∃ h, s.enqueue client h = .ok (s.enqueueCommitted client committed).1 := by
  cases committed with
  | none => exact .inl rfl
  | some x =>
    cases he : s.enqueue client x with
    | error e => exact .inl (by simp only [enqueueCommitted, he])
    | ok t => exact .inr ⟨x, by simp only [enqueueCommitted, he]⟩

theorem send_cases {pool pool' : Pool} {frame : List UInt8} {timed : Bool} {now : UInt32}
    {answer : Except Error Handle}
    (hsend : s.send pool client frame timed now = .ok (s', pool', answer)) :
    s' = s ∨ ∃ h, s.enqueue client h = .ok s' := by
  unfold send at hsend
  split at hsend
  · exact .inl (Prod.mk.inj (Except.ok.inj hsend)).1.symm
  split at hsend
  · exact .inl (Prod.mk.inj (Except.ok.inj hsend)).1.symm
  obtain ⟨res, -, hres⟩ := bind_eq_ok_iff.mp hsend
  cases res with
  | none => exact .inl (Prod.mk.inj (Except.ok.inj hres)).1.symm
  | some res =>
    obtain ⟨⟨q, res, fits⟩, -, hq⟩ := bind_eq_ok_iff.mp hres
    obtain ⟨⟨q, committed⟩, -, hc⟩ := bind_eq_ok_iff.mp hq
    rw [← (Prod.mk.inj (Except.ok.inj hc)).1]
    exact s.enqueueCommitted_cases client committed

theorem retire_eq (hr : s.retire sel = .ok s') :
    ∃ (i : Fin clients) (q : SlotQueue depth), i.val = sel.client ∧
      ((s.queues.get sel.handle.priority).get i).freeIndex sel.index = .ok q ∧
      s' = { s.setQueue sel.handle.priority i q with
        turn := s.turn.set sel.handle.priority ((sel.client + 1) % clients) } := by
  unfold retire at hr
  split_ifs at hr with hc
  obtain ⟨q, hq, hs⟩ := bind_eq_ok_iff.mp hr
  exact ⟨⟨sel.client, hc⟩, q, rfl, hq, (Except.ok.inj hs).symm⟩

/-- Completing a frame charges for the length that its record states, reports it and passes the turn on.
-/
theorem complete_cases {pool pool' : Pool} {stamp stop : UInt32} {line : Line}
    (hc : s.complete pool sel stamp stop line = .ok (s', pool')) :
    ∃ (header : Header) (shaper : Shaper) (i : Fin clients) (q : SlotQueue depth),
      pool.header sel.handle = .ok header ∧
      s.charge sel.handle.priority line header.length = { s with shaper } ∧
      ((s.queues.get sel.handle.priority).get i).freeIndex sel.index = .ok q ∧
      let reported := s.report header.stampId (line.departure stamp)
      s' = { s.setQueue sel.handle.priority i q with
        shaper
        departures := reported.departures
        stampsDropped := reported.stampsDropped
        turn := s.turn.set sel.handle.priority ((sel.client + 1) % clients)
        lastEnd := stop } := by
  unfold complete at hc
  obtain ⟨-, -, hc⟩ := bind_eq_ok_iff.mp hc
  obtain ⟨header, hheader, hc⟩ := bind_eq_ok_iff.mp hc
  obtain ⟨marked, -, hc⟩ := bind_eq_ok_iff.mp hc
  obtain ⟨t, ht, hc⟩ := bind_eq_ok_iff.mp hc
  obtain ⟨freed, -, hc⟩ := bind_eq_ok_iff.mp hc
  obtain rfl := (Prod.mk.inj (Except.ok.inj hc)).1
  obtain ⟨shaper, hcharge⟩ := s.exists_charge_eq sel.handle.priority line header.length
  rw [hcharge, report_shaper] at ht
  obtain ⟨i, q, -, hq, rfl⟩ := retire_eq ht
  exact ⟨header, shaper, i, q, hheader, hcharge, hq, rfl⟩

theorem complete_eq {pool pool' : Pool} {stamp stop : UInt32} {line : Line}
    (hc : s.complete pool sel stamp stop line = .ok (s', pool')) :
    ∃ header, pool.header sel.handle = .ok header ∧ s'.armed = s.armed ∧
      s'.shaper = (s.charge sel.handle.priority line header.length).shaper ∧
      s'.turn = s.turn.set sel.handle.priority ((sel.client + 1) % clients) ∧
      (s.Sorted → s'.Sorted) := by
  obtain ⟨header, shaper, i, q, hheader, hcharge, hq, rfl⟩ := complete_cases hc
  refine ⟨header, hheader, rfl, ?_, rfl, fun hs => hs.setQueue ((hs _ i).freeIndex hq)⟩
  rw [hcharge]

end Egress.Scheduler

end EtherBuffer
