import EtherBuffer.Proofs.Egress.Steps
import EtherBuffer.Proofs.Pool.Room
import Mathlib.Data.List.Basic

/-! How the scheduler handles a frame from end to end. -/
namespace EtherBuffer

theorem Session.Sound.depart {s : Session} {base : ℕ} {gone held : List Receipt}
    (h : s.Sound base gone held) {i : ℕ} {r : Receipt} (hi : s.receipts[i]? = some r)
    (hr : r.releases = 0) (time : UInt32) :
    ∃ marked freed, s.pool.setHeader r.handle { r.header with timestamp := time, stage := .sent } =
        .ok marked ∧ marked.free r.handle = .ok freed ∧ freed.priority = s.pool.priority ∧
      Kept { s with pool := freed, receipts := s.receipts.modify i (Receipt.departed time) } := by
  let r' : Receipt := { r with header := { r.header with timestamp := time, stage := .sent } }
  obtain ⟨marked, hmarked, hst, base', gone', held', h'⟩ := h.setHeader hi hr r'.header
  have hi' : (s.receipts.set i r')[i]? = some r' :=
    List.getElem?_set_self (List.getElem?_eq_some_iff.mp hi).1
  obtain ⟨freed, hfreed, hst', hk⟩ := h'.free hi' hr
  refine ⟨marked, freed, hmarked, hfreed, hst'.priority_eq.trans hst.priority_eq, ?_⟩
  rw [List.set_set] at hk
  rw [List.modify_eq_set_getElem?, hi]
  exact hk

namespace Egress

open Link Record

theorem Shaper.gate_some {α : Type} {s : Shaper} {line : Line} {now : UInt32} {waiting : Option α}
    {a : α} (h : (s.gate line now waiting).2 = some a) : waiting = some a := by
  cases waiting with
  | none => cases h
  | some b =>
    change (if 0 ≤ s.creditAt line now then some b else none) = some a at h
    split_ifs at h
    exact h

namespace Scheduler

variable {clients depth stamps : ℕ} {s : Scheduler clients depth stamps} {client : ℕ}
  {sel : Selection} {p : Priority}

theorem peek_cases (h : s.peek p = some sel) : ∃ i : Fin clients, sel.client = i ∧
    ((s.queues.get p).get i).peek = some sel.handle ∧
    sel.index = ((s.queues.get p).get i).readIndex := by
  obtain ⟨i, -, hi⟩ := List.exists_of_findSome?_eq_some h
  obtain ⟨x, hx, rfl⟩ := Option.map_eq_some_iff.mp hi
  exact ⟨i, rfl, hx, rfl⟩

theorem select_queues (s : Scheduler clients depth stamps) (line : Line) (now : UInt32) :
    (s.select line now).1.queues = s.queues := by
  obtain ⟨shaper, armed, he⟩ := s.exists_select_eq line now
  rw [he]

theorem select_some {line : Line} {now : UInt32} (h : (s.select line now).2 = some sel) :
    ∃ p, s.peek p = some sel := by
  have low_or {admitted : Option Selection} (hadmitted : admitted = some sel → s.peek .high = some sel)
      (ha : (admitted <|> s.peek .low) = some sel) : ∃ p, s.peek p = some sel := by
    cases hc : admitted with
    | some a =>
      rw [hc] at ha
      exact ⟨.high, hadmitted (hc.trans ha)⟩
    | none =>
      rw [hc] at ha
      exact ⟨.low, ha⟩
  cases hl : line.shaperEnabled with
  | true =>
    rw [select_eq s hl] at h
    exact low_or Shaper.gate_some h
  | false =>
    simp only [select, hl] at h
    exact low_or id h

theorem charge_queues (s : Scheduler clients depth stamps) (p : Priority) (line : Line)
    (length : UInt32) : (s.charge p line length).queues = s.queues := by
  unfold charge
  split_ifs <;> rfl

variable [Positive depth]

theorem exists_add_of_canSend (hs : s.canSend client p = true) (h : Handle) :
    ∃ (i : Fin clients) (q : SlotQueue depth), i.val = client ∧
      ((s.queues.get p).get i).add h = .ok q := by
  unfold canSend at hs
  cases hq : (s.queues.get p)[client]? with
  | none =>
    rw [hq] at hs
    cases hs
  | some q =>
    obtain ⟨hc, rfl⟩ := Vector.getElem?_eq_some_iff.mp hq
    rw [hq] at hs
    have hroom : (s.queues.get p)[client].isFull = false := by simpa using hs
    exact ⟨⟨client, hc⟩, _, rfl, if_neg (ne_true_of_eq_false hroom)⟩

theorem enqueue_ok {i : Fin clients} {h : Handle} {q : SlotQueue depth}
    (hq : ((s.queues.get h.priority).get i).add h = .ok q) :
    s.enqueue i h = .ok (s.setQueue h.priority i q) := by
  have hget : ((s.queues.get h.priority)[i.val]).add h = .ok q := hq
  unfold enqueue
  rw [dif_pos i.isLt, hget]

section Send

variable {pool : Pool} {frame : List UInt8}

theorem send_of_full (hc : client < clients) (hs : s.canSend client pool.priority = false)
    (timed : Bool) (now : UInt32) :
    s.send pool client frame timed now = .ok (s, pool, .error (.queue .full)) := by
  unfold send
  rw [if_neg (Nat.not_le.mpr hc), hs]
  rfl

theorem send_of_no_room (hc : client < clients) (hs : s.canSend client pool.priority = true)
    (hroom : pool.canHold frame.length = .ok false) (timed : Bool) (now : UInt32) :
    s.send pool client frame timed now = .ok (s, pool, .error (.queue .full)) := by
  unfold send
  rw [if_neg (Nat.not_le.mpr hc), hs, Pool.reserveAtLeast, hroom]
  rfl

theorem send_eq_put (hc : client < clients) (hs : s.canSend client pool.priority = true)
    (hroom : pool.canHold frame.length = .ok true) (timed : Bool) (now : UInt32) :
    s.send pool client frame timed now =
      (pool.put [frame] { timestamp := now, stampId := if timed then .ofNat client + 1 else 0 } >>=
        fun (q, h) => .ok ((s.enqueueCommitted client h).1, q, (s.enqueueCommitted client h).2)) := by
  unfold send
  rw [if_neg (Nat.not_le.mpr hc), hs, Pool.reserveAtLeast, hroom, Pool.put_singleton]
  change (pool.write pool.reserve frame >>= _) = _
  cases pool.write pool.reserve frame with
  | error e => rfl
  | ok w =>
    obtain ⟨q, res, fits⟩ := w
    simp only [ok_bind]
    cases q.commit res _ <;> rfl

theorem send_accepted {rs gone held : List Receipt} {base : ℕ}
    (hk : (Session.mk pool none rs).Sound base gone held) (hc : client < clients)
    (hs : s.canSend client pool.priority = true) (hroom : pool.canHold frame.length = .ok true)
    (timed : Bool) (now : UInt32) :
    let h := Handle.at pool.priority pool.writeOffset
    let header : Header :=
      { timestamp := now, stampId := if timed then UInt32.ofNat client + 1 else 0 }
    ∃ (i : Fin clients) (queue : SlotQueue depth) (pool' : Pool) (held' : List Receipt),
      i.val = client ∧ ((s.queues.get pool.priority).get i).add h = .ok queue ∧
      pool.put [frame] header = .ok (pool', some h) ∧
      s.send pool client frame timed now = .ok (s.setQueue pool.priority i queue, pool', .ok h) ∧
      pool'.priority = pool.priority ∧ pool'.dropped = pool.dropped ∧
      (Session.mk pool' none (rs ++ [Session.issue h frame header])).Sound base gone held' := by
  intro h header
  have hflat : [frame].flatten = frame := List.flatten_singleton
  rw [← hflat] at hroom
  obtain ⟨pool', held', hput, hprio, hdropped, hsound⟩ := hk.put_fitting hroom header
  rw [hflat] at hroom hsound
  obtain ⟨i, queue, rfl, hadd⟩ := exists_add_of_canSend hs h
  have henqueue : s.enqueue i h = .ok (s.setQueue pool.priority i queue) := enqueue_ok hadd
  have hqueued : s.enqueueCommitted i (some h) = (s.setQueue pool.priority i queue, .ok h) := by
    simp only [enqueueCommitted, henqueue]
  refine ⟨i, queue, pool', held', rfl, hadd, hput, ?_, hprio, hdropped, hsound⟩
  rw [send_eq_put hc hs hroom, hput, ok_bind]
  change Except.ok ((s.enqueueCommitted i (some h)).1, pool', (s.enqueueCommitted i (some h)).2) = _
  rw [hqueued]

end Send

/-- A frame is refused without a trace, or it is committed and queued. -/
theorem send_outcome (s : Scheduler clients depth stamps) {pool : Pool} {rs : List Receipt}
    (hk : (Session.mk pool none rs).Kept) (client : ℕ) {frame : List UInt8}
    (hn : ¬ (Request.reserveAtLeast frame.length).Oversized) (timed : Bool) (now : UInt32) :
    (∃ e, s.send pool client frame timed now = .ok (s, pool, .error e)) ∨
    ∃ (i : Fin clients) (q : SlotQueue depth) (pool' : Pool), i.val = client ∧
      let h := Handle.at pool.priority pool.writeOffset
      let header : Header :=
        { timestamp := now, stampId := if timed then UInt32.ofNat client + 1 else 0 }
      ((s.queues.get pool.priority).get i).add h = .ok q ∧
        s.send pool client frame timed now = .ok (s.setQueue pool.priority i q, pool', .ok h) ∧
        pool'.priority = pool.priority ∧
        (Session.mk pool' none (rs ++ [Session.issue h frame header])).Kept := by
  obtain ⟨base, gone, held, hk⟩ := hk
  by_cases hc : clients ≤ client
  · exact .inl ⟨_, if_pos hc⟩
  rw [Nat.not_le] at hc
  cases hs : s.canSend client pool.priority with
  | false => exact .inl ⟨_, send_of_full hc hs timed now⟩
  | true =>
    have hroom := pool.canHold_eq (Nat.lt_of_not_le hn)
    cases hfits : decide (max minUsage (extent frame.length) ≤ pool.freeSpace) with
    | false =>
      rw [hfits] at hroom
      exact .inl ⟨_, send_of_no_room hc hs hroom timed now⟩
    | true =>
      rw [hfits] at hroom
      obtain ⟨i, queue, pool', held', hi, hadd, -, hsend, hprio, -, hsound⟩ :=
        send_accepted hk hc hs hroom timed now
      exact .inr ⟨i, queue, pool', hi, hadd, hsend, hprio, base, gone, held', hsound⟩

theorem retire_ok {i : Fin clients} {q : SlotQueue depth} (hi : sel.client = i)
    (hq : ((s.queues.get sel.handle.priority).get i).freeIndex sel.index = .ok q) :
    s.retire sel = .ok { s.setQueue sel.handle.priority i q with
      turn := s.turn.set sel.handle.priority ((sel.client + 1) % clients) } := by
  have hc : sel.client < clients := hi ▸ i.isLt
  obtain rfl : i = ⟨sel.client, hc⟩ := Fin.ext hi.symm
  have hget : (s.queues.get sel.handle.priority)[sel.client].freeIndex sel.index = .ok q := hq
  unfold retire
  rw [dif_pos hc, hget]
  rfl

theorem complete_ok {pool marked freed : Pool} {header : Header} {i : Fin clients}
    {q : SlotQueue depth} (hp : pool.priority = sel.handle.priority)
    (hheader : pool.header sel.handle = .ok header) {stamp : UInt32} {line : Line}
    (hmarked : pool.setHeader sel.handle
      { header with timestamp := line.departure stamp, stage := .sent } = .ok marked)
    (hfreed : marked.free sel.handle = .ok freed) (hi : sel.client = i)
    (hq : ((s.queues.get sel.handle.priority).get i).freeIndex sel.index = .ok q) (stop : UInt32) :
    ∃ s', s.complete pool sel stamp stop line = .ok (s', freed) ∧
      s'.queues = (s.setQueue sel.handle.priority i q).queues := by
  let reported := (s.charge sel.handle.priority line header.length).report header.stampId
    (line.departure stamp)
  have hqueues : reported.queues = s.queues := by
    obtain ⟨departures, stampsDropped, hreport⟩ :=
      (s.charge sel.handle.priority line header.length).report_eq header.stampId
        (line.departure stamp)
    change (Scheduler.report _ _ _).queues = _
    rw [hreport]
    exact s.charge_queues _ _ _
  let retired : Scheduler clients depth stamps :=
    { reported.setQueue sel.handle.priority i q with
      turn := reported.turn.set sel.handle.priority ((sel.client + 1) % clients) }
  have hretire : reported.retire sel = .ok retired := retire_ok hi (by rw [hqueues]; exact hq)
  refine ⟨{ retired with lastEnd := stop }, ?_, ?_⟩
  · unfold complete
    rw [require_of_true hp, ok_bind, hheader, ok_bind]
    dsimp only
    rw [hmarked, ok_bind]
    change (reported.retire sel >>= _) = _
    rw [hretire, ok_bind, hfreed]
    rfl
  · change (reported.setQueue sel.handle.priority i q).queues = _
    simp only [setQueue, hqueues]

end Scheduler

end Egress

end EtherBuffer
