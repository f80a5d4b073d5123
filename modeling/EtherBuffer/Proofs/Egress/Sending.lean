import EtherBuffer.Proofs.Egress.Delivery
import EtherBuffer.Proofs.Queue.Fifo

/-! Sending is all or nothing: a refused frame has changed nothing, and any other one has a record and a
place in a queue. -/
namespace EtherBuffer.Egress.Transmission

open Link Record

variable {clients depth stamps : ℕ} [Positive depth] {x : Transmission clients depth stamps}
  {p : Priority} {frame : List UInt8}

/-- The frame is in a new record, which is queued once, behind the other frames of its client and class.
-/
structure Accepts (x : Transmission clients depth stamps) (p : Priority) (i : Fin clients)
    (frame : List UInt8) (timed : Bool) (now : UInt32) (h : Handle)
    (s : Scheduler clients depth stamps) (pool : Pool) : Prop where
  handle_eq : h = .at p (x.pools.get p).writeOffset
  joined : (x.session p).Joined pool (Session.issue h frame
    { timestamp := now, stampId := if timed then .ofNat i + 1 else 0 })
  stamped : ∃ stampId,
    pool.header h = .ok { length := .ofNat frame.length, timestamp := now, stampId } ∧
      (timed = false → stampId = 0) ∧ (timed = true → stampId = .ofNat (i + 1)) ∧
      (i.val + 1 < 2 ^ 32 → (stampId.toNat = i + 1 ↔ timed = true))
  payload_eq : ∀ first n, pool.readPayload h first n = .ok ((frame.drop first).take n)
  unqueued : ∀ p' j, h ∉ (x.queue p' j).handles
  queued : ((s.queues.get p).get i).handles = (x.queue p i).handles ++ [h]
  others_eq : ∀ p' j, ¬ (p = p' ∧ i = j) → (s.queues.get p').get j = x.queue p' j
  scheduler_eq : s = { x.scheduler with queues := s.queues }

omit [Positive depth] in
theorem canSend_iff (x : Transmission clients depth stamps) (p : Priority) (i : Fin clients) :
    x.scheduler.canSend i p = true ↔ (x.queue p i).isFull = false := by
  rw [x.scheduler.canSend_eq p i.isLt]
  exact Bool.not_eq_eq_eq_not

namespace Balanced

theorem unqueued (h : x.Balanced) {pool : Pool} {r : Receipt}
    (hj : (x.session p).Joined pool r) (hp : r.handle.priority = p) (p' : Priority) (j : Fin clients) :
    r.handle ∉ (x.queue p' j).handles := by
  intro hmem
  rw [(h.queued p' j).handles_solid] at hmem
  obtain ⟨e, he, hhandle⟩ := List.mem_map.mp hmem
  have hprio := h.priority_of_waiting he
  rw [hhandle, hp] at hprio
  subst hprio
  obtain ⟨t, ht, hlive, hthandle, -⟩ := h.consistent.record he
  exact (hj.shows t (List.mem_of_getElem? ht) hlive).1 (hthandle.trans hhandle)

/-- With a slot and space for it a frame is sent; none of the steps after these checks fails. -/
theorem accepts (h : x.Balanced) {i : Fin clients} (hs : x.scheduler.canSend i p = true)
    (hroom : (x.pools.get p).canHold frame.length = .ok true) (timed : Bool) (now : UInt32) :
    ∃ s pool hd, (x.pools.get p).put [frame]
        { timestamp := now, stampId := if timed then .ofNat i + 1 else 0 } = .ok (pool, some hd) ∧
      x.scheduler.enqueue i hd = .ok s ∧
      x.scheduler.send (x.pools.get p) i frame timed now = .ok (s, pool, .ok hd) ∧
      x.Accepts p i frame timed now hd s pool := by
  have hprio := h.priority_eq p
  obtain ⟨base, gone, held, hk⟩ := h.kept p
  -- A frame that fits in the arena has a length that fits in a word.
  have hlen : (UInt32.ofNat frame.length).toNat = frame.length := by
    have hfits := (hk.holds.room_iff _).mp ((hk.holds.canHold_iff _).mp hroom)
    have hfree := hk.holds.freeSpace_le
    have hsize := Pool.capacity_le_size (x.session p).pool
    have hsmall := hk.holds.small
    rw [UInt32.toNat_ofNat', Nat.mod_eq_of_lt (by omega)]
  rw [← hprio] at hs
  obtain ⟨j, queue, pool, held', hj, hadd, hput, hsend, -, hdropped, hsound⟩ :=
    Scheduler.send_accepted hk i.isLt hs hroom timed now
  obtain rfl : j = i := Fin.ext hj
  have hjoined := hk.joined hdropped hsound rfl
  have hread := hjoined.shows_new.readPayload_eq hlen
  have henqueue : x.scheduler.enqueue j
      (.at (x.pools.get p).priority (x.pools.get p).writeOffset) = _ := Scheduler.enqueue_ok hadd
  rw [hprio] at hadd hput hsend hjoined hread henqueue
  refine ⟨_, pool, _, hput, henqueue, hsend, ?_⟩
  constructor
  · rfl
  · exact hjoined
  · refine ⟨_, hjoined.shows_new.header, ?_, ?_, ?_⟩
    · rintro rfl
      rfl
    · rintro rfl
      exact (UInt32.ofNat_add j.val 1).symm
    · intro hlt
      have hone : (UInt32.ofNat j.val + 1).toNat = j + 1 :=
        (congrArg UInt32.toNat (UInt32.ofNat_add j.val 1).symm).trans (Nat.mod_eq_of_lt hlt)
      cases timed with
      | false => simp
      | true => exact iff_of_true hone rfl
  · exact hread
  · exact h.unqueued hjoined rfl
  · have hwindow := ((h.queued p j).of_add hadd).1
    rw [← List.map_singleton, ← List.map_append] at hwindow
    rw [Scheduler.get_setQueue, if_pos ⟨rfl, rfl⟩, (h.queued p j).handles_solid,
      hwindow.handles_solid]
  · intro p' k hne
    rw [Scheduler.get_setQueue]
    exact if_neg hne
  · rfl

theorem send_cases (h : x.Balanced) (client : ℕ)
    (hn : payloadOffset + frame.length + 3 < sizeLimit) (timed : Bool) (now : UInt32) :
    clients ≤ client ∧ x.scheduler.send (x.pools.get p) client frame timed now =
        .ok (x.scheduler, x.pools.get p, .error (.config .invalidClient)) ∨
      ∃ i : Fin clients, i.val = client ∧
        (((x.queue p i).isFull = true ∨ (x.pools.get p).canHold frame.length = .ok false) ∧
            x.scheduler.send (x.pools.get p) client frame timed now =
              .ok (x.scheduler, x.pools.get p, .error (.queue .full)) ∨
          (x.queue p i).isFull = false ∧ (x.pools.get p).canHold frame.length = .ok true) := by
  have hprio := h.priority_eq p
  have hroom := (x.pools.get p).canHold_eq hn
  by_cases hc : clients ≤ client
  · exact .inl ⟨hc, if_pos hc⟩
  rw [Nat.not_le] at hc
  have hslot := x.scheduler.canSend_eq (x.pools.get p).priority hc
  have hqueue : (x.scheduler.queues.get (x.pools.get p).priority).get ⟨client, hc⟩ =
      x.queue p ⟨client, hc⟩ := by rw [hprio]; rfl
  rw [hqueue] at hslot
  refine .inr ⟨⟨client, hc⟩, rfl, ?_⟩
  cases hfull : (x.queue p ⟨client, hc⟩).isFull with
  | true =>
    rw [hfull] at hslot
    exact .inl ⟨.inl rfl, Scheduler.send_of_full hc hslot timed now⟩
  | false =>
    rw [hfull] at hslot
    cases hfits : decide (max minUsage (extent frame.length) ≤ (x.pools.get p).freeSpace) with
    | true =>
      rw [hfits] at hroom
      exact .inr ⟨rfl, hroom⟩
    | false =>
      rw [hfits] at hroom
      exact .inl ⟨.inr hroom, Scheduler.send_of_no_room hc hslot hroom timed now⟩

end Balanced

/-- A frame is refused for want of the client, a slot or space, and nothing has changed; in every other
case it is sent. -/
theorem reached_sends_whole (low high : Pool) (hlow : low.Fresh .low) (hhigh : high.Fresh .high)
    (x : Transmission clients depth stamps) (hx : Reached (begin low high) x) (p : Priority)
    (client : ℕ) (frame : List UInt8) (hn : payloadOffset + frame.length + 3 < sizeLimit)
    (timed : Bool) (now : UInt32) :
    let pool := x.pools.get p
    ∃ s pool' answer, x.scheduler.send pool client frame timed now = .ok (s, pool', answer) ∧
      (answer = .error (.config .invalidClient) ↔ clients ≤ client) ∧
      (answer = .error (.queue .full) ↔ ∃ i : Fin clients, i.val = client ∧
        ((x.queue p i).isFull = true ∨ pool.canHold frame.length = .ok false)) ∧
      (∀ e, answer = .error e → s = x.scheduler ∧ pool' = pool) ∧
      (∀ h, answer = .ok h → ∃ i : Fin clients, i.val = client ∧
        x.Accepts p i frame timed now h s pool') ∧
      (x.scheduler.canSend client p = true →
        ∀ res, pool.reserveAtLeast frame.length = .ok (some res) →
          ∃ q res' fits h, pool.write res frame = .ok (q, res', fits) ∧
            q.commit res' { timestamp := now, stampId := if timed then .ofNat client + 1 else 0 } =
              .ok (pool', some h) ∧
            x.scheduler.enqueue client h = .ok s ∧ answer = .ok h) := by
  have h := hx.balanced hlow hhigh
  intro pool
  rcases h.send_cases client hn timed now with ⟨hc, hsend⟩ | ⟨i, rfl, ⟨hwant, hsend⟩ | ⟨hslot, hroom⟩⟩
  · refine ⟨_, _, _, hsend, iff_of_true rfl hc, iff_of_false ?_ ?_, fun _ _ => ⟨rfl, rfl⟩, ?_, ?_⟩
    · intro he
      cases he
    · rintro ⟨i, rfl, -⟩
      exact absurd i.isLt (Nat.not_lt.mpr hc)
    · intro hd hd'
      cases hd'
    · intro hs
      rw [Scheduler.canSend, Vector.getElem?_eq_none hc] at hs
      cases hs
  · refine ⟨_, _, _, hsend, iff_of_false ?_ (Nat.not_le.mpr i.isLt), iff_of_true rfl ⟨i, rfl, hwant⟩,
      fun _ _ => ⟨rfl, rfl⟩, ?_, ?_⟩
    · intro he
      cases he
    · intro hd hd'
      cases hd'
    · intro hs res hres
      have hslot := (x.canSend_iff p i).mp hs
      have hroom := (Pool.reserveAtLeast_eq_some_iff.mp hres).1
      rcases hwant with hfull | hnone
      · cases hslot.symm.trans hfull
      · cases hroom.symm.trans hnone
  · have hs : x.scheduler.canSend i p = true := (x.canSend_iff p i).mpr hslot
    obtain ⟨s, pool', hd, hput, henqueue, hsend, haccepts⟩ := h.accepts hs hroom timed now
    refine ⟨s, pool', _, hsend, iff_of_false ?_ (Nat.not_le.mpr i.isLt), iff_of_false ?_ ?_, ?_, ?_, ?_⟩
    · intro he
      cases he
    · intro he
      cases he
    · rintro ⟨j, hj, hfull | hnone⟩
      · obtain rfl : j = i := Fin.ext hj
        cases hslot.symm.trans hfull
      · cases hroom.symm.trans hnone
    · intro e he
      cases he
    · intro k hk
      obtain rfl := Except.ok.inj hk
      exact ⟨i, rfl, haccepts⟩
    · intro _ res hres
      obtain ⟨-, rfl⟩ := Pool.reserveAtLeast_eq_some_iff.mp hres
      rw [Pool.put_singleton] at hput
      obtain ⟨⟨q, res', fits⟩, hwrite, hcommit⟩ := bind_eq_ok_iff.mp hput
      exact ⟨q, res', fits, hd, hwrite, hcommit, henqueue, rfl⟩

/-- A frame that is too long by one byte is refused, and one that fits goes on at the start of the ring.
-/
theorem reached_sends_whole_wrapped :
    ∃ low high, ∃ x : Transmission 2 1 1, Pool.Fresh low .low ∧ Pool.Fresh high .high ∧
      Reached (begin low high) x ∧
      x.scheduler.send x.pools.low 2 [1] true 5 =
        .ok (x.scheduler, x.pools.low, .error (.config .invalidClient)) ∧
      x.scheduler.send x.pools.low 0 [1] true 5 =
        .ok (x.scheduler, x.pools.low, .error (.queue .full)) ∧
      x.scheduler.send x.pools.low 1 (.replicate 93 7) true 5 =
        .ok (x.scheduler, x.pools.low, .error (.queue .full)) ∧
      ∃ s pool, x.scheduler.send x.pools.low 1 (.replicate 92 7) true 5 =
          .ok (s, pool, .ok ⟨.low, 112⟩) ∧
        x.Accepts .low 1 (.replicate 92 7) true 5 ⟨.low, 112⟩ s pool := by
  let pool (p : Priority) : Pool :=
    { arena := .replicate 200 0, priority := p, roomy := by decide +kernel }
  have hfresh (p : Priority) : (pool p).Fresh p :=
    ⟨.replicate 200 0, by decide +kernel, dif_pos (pool p).roomy⟩
  let actions : List Action := [.send .low 1 [3] false 0, .select {} 0, .complete 0 0 {},
    .send .low 0 (.replicate 20 4) true 1]
  let start : Transmission 2 1 1 := begin (pool .low) (pool .high)
  have hrun : (perform (fun _ a => a.Fits) step start actions).map (fun x =>
      ((x.queue .low 0).isFull, (x.queue .low 1).isFull, x.pools.low.writeOffset,
        x.pools.low.freeSpace)) = some (true, false, 112, 136) := by
    decide +kernel
  obtain ⟨x, hx, he⟩ := Option.map_eq_some_iff.mp hrun
  simp only [Prod.mk.injEq] at he
  obtain ⟨hfirst, hsecond, hwrite, hspace⟩ := he
  have hreached : Reached start x := Run.of_perform hx
  have hroom (n : ℕ) (hn : payloadOffset + n + 3 < sizeLimit) :
      x.pools.low.canHold n = .ok (decide (max minUsage (extent n) ≤ 136)) := by
    rw [← hspace]
    exact x.pools.low.canHold_eq hn
  have hsends := reached_sends_whole _ _ (hfresh .low) (hfresh .high) x hreached .low
  refine ⟨_, _, x, hfresh .low, hfresh .high, hreached, ?_, ?_, ?_, ?_⟩
  · obtain ⟨s, q, answer, hsend, hinvalid, -, hsame, -⟩ := hsends 2 [1] (by decide) true 5
    obtain rfl := hinvalid.mpr le_rfl
    obtain ⟨rfl, rfl⟩ := hsame _ rfl
    exact hsend
  · obtain ⟨s, q, answer, hsend, -, hfull, hsame, -⟩ := hsends 0 [1] (by decide) true 5
    obtain rfl := hfull.mpr ⟨0, rfl, .inl hfirst⟩
    obtain ⟨rfl, rfl⟩ := hsame _ rfl
    exact hsend
  · obtain ⟨s, q, answer, hsend, -, hfull, hsame, -⟩ :=
      hsends 1 (.replicate 93 7) (by decide) true 5
    obtain rfl := hfull.mpr ⟨1, rfl, .inr (hroom 93 (by decide))⟩
    obtain ⟨rfl, rfl⟩ := hsame _ rfl
    exact hsend
  · obtain ⟨s, q, answer, hsend, -, -, -, haccepts, hnever⟩ :=
      hsends 1 (.replicate 92 7) (by decide) true 5
    have hs : x.scheduler.canSend 1 .low = true := (x.canSend_iff .low 1).mpr hsecond
    obtain ⟨-, -, -, h, -, -, -, rfl⟩ := hnever hs _
      (Pool.reserveAtLeast_eq_some_iff.mpr ⟨hroom 92 (by decide), rfl⟩)
    obtain ⟨i, hi, haccepts⟩ := haccepts h rfl
    obtain rfl : i = 1 := Fin.ext hi
    obtain rfl : h = ⟨.low, 112⟩ := by
      rw [haccepts.handle_eq]
      change Handle.at .low x.pools.low.writeOffset = _
      rw [hwrite]
      rfl
    exact ⟨s, q, hsend, haccepts⟩

end EtherBuffer.Egress.Transmission
