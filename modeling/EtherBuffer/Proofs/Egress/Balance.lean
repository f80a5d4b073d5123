import EtherBuffer.Proofs.Egress.Handling
import EtherBuffer.Proofs.Egress.Transmission
import EtherBuffer.Proofs.Pool.Cursor
import EtherBuffer.Proofs.Queue.Window

/-! Queues, records and books of the transmit side stay in balance, and no action faults. -/
namespace EtherBuffer.Egress.Transmission

open Link

variable {clients depth stamps : ℕ}

theorem session_of_set {x y : Transmission clients depth stamps} {p : Priority} {pool : Pool}
    {rs : List Receipt} (hpools : y.pools = x.pools.set p pool)
    (hreceipts : y.ledger.receipts = x.ledger.receipts.set p rs) (p' : Priority) :
    y.session p' = if p = p' then ⟨pool, none, rs⟩ else x.session p' := by
  unfold session
  rw [hpools, hreceipts]
  split_ifs with hp
  · rw [hp, PerPriority.get_set, PerPriority.get_set]
  · rw [PerPriority.get_set_of_ne _ _ hp, PerPriority.get_set_of_ne _ _ hp]

theorem forall_session_of_set {P : Priority → Session → Prop}
    {x y : Transmission clients depth stamps} {p : Priority} {pool : Pool} {rs : List Receipt}
    (hpools : y.pools = x.pools.set p pool)
    (hreceipts : y.ledger.receipts = x.ledger.receipts.set p rs) (h : ∀ p', P p' (x.session p'))
    (hp : P p ⟨pool, none, rs⟩) (p' : Priority) : P p' (y.session p') := by
  rw [session_of_set hpools hreceipts]
  split_ifs with he
  · rwa [← he]
  · exact h p'

variable [Positive depth] {x y : Transmission clients depth stamps} {p : Priority} {e : Parcel}
  {sel : Selection}

/-- The selection is the frame that its client has at the front. -/
def Selects (x : Transmission clients depth stamps) (sel : Selection) : Prop :=
  ∃ i : Fin clients, sel.client = i ∧ sel.index = (x.queue sel.handle.priority i).readIndex ∧
    (x.ledger.waiting sel.handle.priority i).head?.map (·.handle) = some sel.handle

/-- The queues hold the parcels that wait, and the pools hold their records. -/
structure Balanced (x : Transmission clients depth stamps) : Prop where
  consistent : x.ledger.Consistent
  client_lt : ∀ e ∈ x.ledger.accepted, e.client < clients
  kept : ∀ p, (x.session p).Kept
  measured : ∀ p, (x.session p).Measured
  priority_eq : ∀ p, (x.pools.get p).priority = p
  queued : ∀ p (i : Fin clients),
    (x.queue p i).Window (((x.ledger.waiting p i).map (·.handle)).map some)
  selected : ∀ sel ∈ x.pending, x.Selects sel

namespace Balanced

theorem begin {low high : Pool} (hlow : low.Fresh .low) (hhigh : high.Fresh .high) :
    (Transmission.begin low high : Transmission clients depth stamps).Balanced where
  consistent := .empty
  client_lt e he := absurd he List.not_mem_nil
  kept p := by
    cases p with
    | low => exact hlow.kept
    | high => exact hhigh.kept
  measured p := by cases p <;> exact fun r hr => absurd hr List.not_mem_nil
  priority_eq p := by
    cases p with
    | low => exact hlow.priority_eq
    | high => exact hhigh.priority_eq
  queued p i := by
    have hq : (Transmission.begin low high : Transmission clients depth stamps).queue p i =
        .empty depth := by
      cases p <;> exact Vector.getElem_replicate _
    rw [hq]
    exact .empty
  selected sel hsel := by cases hsel

theorem reschedule (h : x.Balanced) (s : Scheduler clients depth stamps)
    (hs : s.queues = x.scheduler.queues) {pending : Option Selection}
    (hsel : ∀ sel ∈ pending, x.Selects sel) :
    Balanced { x with scheduler := s, pending := pending } where
  consistent := h.consistent
  client_lt := h.client_lt
  kept := h.kept
  measured := h.measured
  priority_eq := h.priority_eq
  queued p i := by
    change SlotQueue.Window ((s.queues.get p).get i) _
    rw [hs]
    exact h.queued p i
  selected sel hmem := by
    obtain ⟨i, hi, hindex, hfront⟩ := hsel sel hmem
    refine ⟨i, hi, ?_, hfront⟩
    change sel.index = ((s.queues.get sel.handle.priority).get i).readIndex
    rw [hs]
    exact hindex

theorem priority_of_waiting (h : x.Balanced) {client : ℕ} (he : e ∈ x.ledger.waiting p client) :
    e.handle.priority = p := by
  obtain ⟨r, hr, hlive, hhandle, -⟩ := h.consistent.record he
  obtain ⟨base, gone, held, hs⟩ := h.kept p
  rw [← hhandle, hs.handle_eq hr hlive]
  exact h.priority_eq p

theorem selects_of_peek (h : x.Balanced) (hp : x.scheduler.peek p = some sel) : x.Selects sel := by
  obtain ⟨i, hi, hpeek, hindex⟩ := Scheduler.peek_cases hp
  have hhead := (h.queued p i).peek_solid
  rw [queue, hpeek, List.head?_map] at hhead
  obtain ⟨e, he, hhandle⟩ := Option.map_eq_some_iff.mp hhead.symm
  have hprio := h.priority_of_waiting (List.mem_of_mem_head? he)
  rw [hhandle] at hprio
  subst hprio
  exact ⟨i, hi, hindex, hhead.symm⟩

theorem select (h : x.Balanced) (line : Line) (now : UInt32) : (x.select line now).Balanced := by
  have hsel : ∀ sel ∈ ((x.scheduler.select line now).2 <|> x.pending), x.Selects sel := by
    intro sel hsel
    cases hs : (x.scheduler.select line now).2 with
    | none =>
      rw [hs] at hsel
      exact h.selected sel hsel
    | some sel' =>
      rw [hs] at hsel
      obtain rfl := Option.some.inj hsel
      obtain ⟨p, hp⟩ := Scheduler.select_some hs
      exact h.selects_of_peek hp
  exact h.reschedule _ (x.scheduler.select_queues line now) hsel

theorem accept (h : x.Balanced) {i : Fin clients} {frame : List UInt8} {header : Header}
    {hd : Handle} {q : SlotQueue depth} {pool : Pool} (hadd : (x.queue p i).add hd = .ok q)
    (hprio : pool.priority = p)
    (hk : (Session.mk pool none
      (x.ledger.receipts.get p ++ [Session.issue hd frame header])).Kept) :
    Balanced { x with
      scheduler := x.scheduler.setQueue p i q
      pools := x.pools.set p pool
      ledger := x.ledger.accept p i frame header hd } := by
  have hwaiting := h.consistent.waiting_accept p i frame header hd
  have hmeasured : (Session.mk pool none
      (x.ledger.receipts.get p ++ [Session.issue hd frame header])).Measured := by
    intro r hr
    rcases List.mem_append.mp hr with hr | hr
    · exact h.measured p r hr
    · rw [List.mem_singleton.mp hr]
      rfl
  constructor
  · exact h.consistent.accept p i frame header hd
  · intro e he
    rcases List.mem_append.mp he with he | he
    · exact h.client_lt e he
    · rw [List.mem_singleton.mp he]
      exact i.isLt
  · exact forall_session_of_set (P := fun _ s => s.Kept) rfl rfl h.kept hk
  · exact forall_session_of_set (P := fun _ s => s.Measured) rfl rfl h.measured hmeasured
  · exact forall_session_of_set (P := fun p s => s.pool.priority = p) rfl rfl h.priority_eq hprio
  · intro p' j
    change SlotQueue.Window (((x.scheduler.setQueue p i q).queues.get p').get j) _
    rw [Scheduler.get_setQueue, hwaiting p' j]
    by_cases hself : p = p' ∧ i = j
    · obtain ⟨rfl, rfl⟩ := hself
      rw [if_pos ⟨rfl, rfl⟩, if_pos ⟨rfl, rfl⟩, List.map_append, List.map_append]
      exact ((h.queued p i).of_add hadd).1
    · rw [if_neg hself, if_neg fun hc => hself ⟨hc.1, Fin.ext hc.2⟩, List.append_nil]
      exact h.queued p' j
  · intro sel hsel
    obtain ⟨j, hj, hindex, hfront⟩ := h.selected sel hsel
    refine ⟨j, hj, ?_, ?_⟩
    · change sel.index =
        (((x.scheduler.setQueue p i q).queues.get sel.handle.priority).get j).readIndex
      rw [Scheduler.get_setQueue]
      split_ifs with hself
      · obtain ⟨rfl, rfl⟩ := hself
        rw [((h.queued _ i).of_add hadd).2]
        exact hindex
      · exact hindex
    · obtain ⟨e, he, hhandle⟩ := Option.map_eq_some_iff.mp hfront
      rw [hwaiting, List.head?_append, he]
      exact congrArg some hhandle

theorem finish (h : x.Balanced) {i : Fin clients} {rest : List Parcel}
    (hw : x.ledger.waiting p i = e :: rest) {s : Scheduler clients depth stamps}
    {q : SlotQueue depth} (hs : s.queues = (x.scheduler.setQueue p i q).queues)
    (hq : q.Window ((rest.map (·.handle)).map some)) {pool : Pool} (hprio : pool.priority = p)
    {time : UInt32} (hk : (Session.mk pool none
      ((x.ledger.receipts.get p).modify e.number (Receipt.departed time))).Kept) :
    Balanced { x with
      scheduler := s
      pools := x.pools.set p pool
      pending := none
      ledger := x.ledger.complete e time } := by
  obtain ⟨hacc, -, rfl, hc⟩ := h.consistent.mem_waiting.mp (hw ▸ List.mem_cons_self)
  have hwaiting := Ledger.waiting_complete hw rfl hc time
  have hmeasured : (Session.mk pool none ((x.ledger.receipts.get e.priority).modify e.number
      (Receipt.departed time))).Measured := by
    intro r hr
    obtain ⟨n, hn⟩ := List.mem_iff_getElem?.mp hr
    rw [List.getElem?_modify] at hn
    obtain ⟨r', hr', rfl⟩ := Option.map_eq_some_iff.mp hn
    have hm := h.measured e.priority r' (List.mem_of_getElem? hr')
    split_ifs <;> exact hm
  constructor
  · exact h.consistent.complete hw time
  · exact h.client_lt
  · exact forall_session_of_set (P := fun _ s => s.Kept) rfl rfl h.kept hk
  · exact forall_session_of_set (P := fun _ s => s.Measured) rfl rfl h.measured hmeasured
  · exact forall_session_of_set (P := fun p s => s.pool.priority = p) rfl rfl h.priority_eq hprio
  · intro p' j
    change SlotQueue.Window ((s.queues.get p').get j) _
    rw [hs, Scheduler.get_setQueue, hwaiting p' j]
    by_cases hself : e.priority = p' ∧ i = j
    · obtain ⟨rfl, rfl⟩ := hself
      rw [if_pos ⟨rfl, rfl⟩, if_pos ⟨rfl, rfl⟩]
      exact hq
    · rw [if_neg hself, if_neg fun hc => hself ⟨hc.1, Fin.ext hc.2⟩]
      exact h.queued p' j
  · intro sel hsel
    cases hsel

theorem complete_ledger (h : x.Balanced) (hsel : x.pending = some sel) (stamp stop : UInt32)
    (line : Line) : ∃ y e r, x.complete stamp stop line = .ok y ∧ y.Balanced ∧
      e ∈ x.ledger.waiting sel.handle.priority sel.client ∧
      (x.ledger.receipts.get e.priority)[e.number]? = some r ∧
      (x.pools.get sel.handle.priority).header sel.handle = .ok r.header ∧
      x.scheduler.complete (x.pools.get sel.handle.priority) sel stamp stop line =
        .ok (y.scheduler, y.pools.get sel.handle.priority) ∧
      y.ledger = x.ledger.complete e (line.departure stamp) := by
  obtain ⟨i, hi, hindex, hfront⟩ := h.selected sel hsel
  obtain ⟨e, he, hhandle⟩ := Option.map_eq_some_iff.mp hfront
  obtain ⟨rest, hw⟩ : ∃ rest, x.ledger.waiting sel.handle.priority i = e :: rest := by
    cases hw : x.ledger.waiting sel.handle.priority i with
    | nil => simp [hw] at he
    | cons e' rest =>
      rw [hw] at he
      exact ⟨rest, by rw [Option.some.inj he]⟩
  have hmem : e ∈ x.ledger.waiting sel.handle.priority i := by simp [hw]
  obtain ⟨-, -, hp, hc⟩ := h.consistent.mem_waiting.mp hmem
  obtain ⟨r, hr, hlive, hrhandle, hpay⟩ := h.consistent.record hmem
  obtain ⟨base, gone, held, hs⟩ := h.kept sel.handle.priority
  have hnumber := hs.numberOf_eq hr hlive
  have hheader := hs.header_eq hr hlive
  have hread := hs.readPayload_eq (h.measured _) hr hlive 0 r.header.length.toNat
  rw [List.drop_zero, List.take_of_length_le (hs.length_toNat (h.measured _) hr hlive).ge] at hread
  obtain ⟨marked, freed, hmarked, hfreed, hfprio, hkept⟩ := hs.depart hr hlive (line.departure stamp)
  have hprio := h.priority_eq sel.handle.priority
  have hfront := h.queued sel.handle.priority i
  rw [hw] at hfront
  obtain ⟨q, hq, hwindow⟩ := hfront.pop_solid
  rw [← hindex] at hq
  rw [hrhandle, hhandle] at hheader hmarked hfreed hread hnumber
  obtain ⟨s, hcomplete, hqueues⟩ :=
    Scheduler.complete_ok hprio hheader hmarked hfreed hi hq stop
  have hparcel : x.ledger.parcel sel.client sel.handle r.payload = e :=
    Parcel.ext hp.symm (hi.trans hc.symm) hnumber hhandle.symm hpay
  unfold session at hheader hread
  refine ⟨_, e, r, ?_, h.finish hw hqueues hwindow (hfprio.trans hprio) hkept, hi ▸ hmem,
    hp ▸ hr, hheader, ?_, rfl⟩
  · simp only [Transmission.complete, hsel, hheader, ok_bind, hread, hcomplete, hparcel]
    rfl
  · rw [PerPriority.get_set]
    exact hcomplete

theorem send_ledger (h : x.Balanced) (p : Priority) (client : ℕ) {frame : List UInt8}
    (hn : ¬ (Request.reserveAtLeast frame.length).Oversized) (timed : Bool) (now : UInt32) :
    x.send p client frame timed now = .ok x ∨
      ∃ y hd, x.send p client frame timed now = .ok y ∧ y.Balanced ∧
        (∃ queues, y.scheduler = { x.scheduler with queues }) ∧
        y.ledger = x.ledger.accept p client frame
          { timestamp := now, stampId := if timed then UInt32.ofNat client + 1 else 0 } hd := by
  rcases x.scheduler.send_outcome (h.kept p) client hn timed now with
    ⟨e, he⟩ | ⟨i, q, pool, rfl, hadd, hsend, hprio, hkept⟩
  · refine .inl ?_
    simp only [Transmission.send, he, ok_bind, PerPriority.set_get]
    rfl
  · rw [h.priority_eq] at hadd hprio hkept
    refine .inr ⟨_, _, ?_, h.accept hadd hprio hkept, ⟨_, rfl⟩, rfl⟩
    simp only [Transmission.send, hsend, ok_bind, h.priority_eq]
    rfl

/-- Every action is taken without a fault and keeps the balance. -/
theorem step (h : x.Balanced) {a : Action} (ha : a.Fits) : ∃ y, x.step a = .ok y ∧ y.Balanced := by
  cases a with
  | send p client frame timed now =>
    rcases h.send_ledger p client ha timed now with he | ⟨y, hd, he, hy, -⟩
    · exact ⟨x, he, h⟩
    · exact ⟨y, he, hy⟩
  | select line now => exact ⟨_, rfl, h.select line now⟩
  | complete stamp stop line =>
    cases hsel : x.pending with
    | none => exact ⟨x, by simp only [Transmission.step, Transmission.complete, hsel], h⟩
    | some sel =>
      obtain ⟨y, e, r, he, hy, -⟩ := h.complete_ledger hsel stamp stop line
      exact ⟨y, he, hy⟩
  | takeDeparture => exact ⟨_, rfl, h.reschedule x.scheduler.takeDeparture.2 rfl h.selected⟩
  | resetShaper now => exact ⟨_, rfl, h.reschedule (x.scheduler.resetShaper now) rfl h.selected⟩

end Balanced

theorem Reached.balanced {low high : Pool} (hx : Reached (begin low high) x)
    (hlow : low.Fresh .low) (hhigh : high.Fresh .high) : x.Balanced := by
  refine Run.invariant hx (.begin hlow hhigh) fun u a v hu ha hs => ?_
  obtain ⟨y, hy, hbalanced⟩ := hu.step ha
  obtain rfl := Except.ok.inj (hy.symm.trans hs)
  exact hbalanced

end EtherBuffer.Egress.Transmission
