import EtherBuffer.Interface.Station
import EtherBuffer.Proofs.Egress.Sending
import EtherBuffer.Proofs.Ingress.Parcels

/-! A stack at an interface in use gets and sends whole frames. -/
namespace EtherBuffer

open Egress Ingress Link Record

namespace Station

/-- What a stack makes of the zeros that it gets when it asks for `n` bytes. -/
def filled (n : ℕ) (fill : Vector UInt8 (offeredLength n) → Vector UInt8 (offeredLength n)) :
    List UInt8 :=
  (fill (.replicate (offeredLength n) 0)).toList

theorem length_filled {n : ℕ} (hn : n ≤ maxFrame)
    (fill : Vector UInt8 (offeredLength n) → Vector UInt8 (offeredLength n)) :
    (filled n fill).length = n := by
  rw [filled, Vector.length_toList]
  exact Nat.min_eq_left (hn.trans (by decide))

variable {clients rxDepth txDepth stamps : ℕ} (s : Station)
  (i : Interface clients rxDepth txDepth stamps)

/-- The answer tells whether there is an offer of room. -/
def attemptTransmit [Positive txDepth] (frame : List UInt8) :
    Except Fault (Bool × Interface clients rxDepth txDepth stamps) := do
  if ← s.canTransmit i then return (true, ← s.transmit i frame) else return (false, i)

def attemptReceive [Positive rxDepth] :
    Except Fault (Option (List UInt8) × Interface clients rxDepth txDepth stamps) := do
  if ← s.canReceive i then
    let (got, i) ← s.receive i
    return (some got, i)
  else return (none, i)

variable {i}

theorem canTransmit_eq (hp : (i.txPools.get s.priority).priority = s.priority) :
    s.canTransmit i = .ok (i.scheduler.canSend s.txClient s.priority &&
      decide (max minUsage (extent maxFrame) ≤ (i.txPools.get s.priority).freeSpace)) := by
  unfold canTransmit
  dsimp only
  rw [hp, Pool.canHold_eq _ (by decide)]
  cases i.scheduler.canSend s.txClient s.priority <;> rfl

theorem canReceive_eq {ready : Bool} (h : s.canTransmit i = .ok ready) :
    s.canReceive i = .ok ((i.dispatcher.client? s.rxClient).any Client.isReady && ready) := by
  unfold canReceive
  rw [h]
  cases (i.dispatcher.client? s.rxClient).any Client.isReady <;> rfl

theorem receive_beside [Positive rxDepth] (i : Interface clients rxDepth txDepth stamps)
    (scheduler : Scheduler clients txDepth stamps) (txPools : PerPriority Pool) :
    s.receive { i with scheduler, txPools } =
      (s.receive i).map fun (got, j) => (got, { j with scheduler, txPools }) := by
  unfold receive Interface.collect
  dsimp only
  rcases i.dispatcher.collect s.rxClient i.rxPools Frame.maxTaggedSize with _ | _ | _ <;> rfl

end Station

structure Exchange (clients rxDepth txDepth stamps : ℕ) where
  traffic : Traffic clients rxDepth
  transmission : Transmission clients txDepth stamps

namespace Exchange

inductive Action where
  | incoming (a : Ingress.Action)
  | outgoing (a : Transmission.Action)

variable {clients rxDepth txDepth stamps : ℕ}

section

variable (x : Exchange clients rxDepth txDepth stamps)

def interface (line : Line) : Interface clients rxDepth txDepth stamps where
  dispatcher := x.traffic.reception.dispatcher
  rxPools := x.traffic.reception.pools
  scheduler := x.transmission.scheduler
  txPools := x.transmission.pools
  line := line

def Allows : Action → Prop
  | .incoming a => x.traffic.reception.Allows a
  | .outgoing a => a.Fits

instance : (a : Action) → Decidable (x.Allows a)
  | .incoming a => inferInstanceAs (Decidable (x.traffic.reception.Allows a))
  | .outgoing a => inferInstanceAs (Decidable a.Fits)

end

variable [Positive rxDepth] [Positive txDepth]

def begin (policy : Policy) (pools : PoolPair) (low high : Pool) :
    Exchange clients rxDepth txDepth stamps where
  traffic := .begin clients rxDepth policy pools
  transmission := .begin low high

variable (x : Exchange clients rxDepth txDepth stamps)

def step : Action → Except Fault (Exchange clients rxDepth txDepth stamps)
  | .incoming a => (x.traffic.step a).map fun traffic => { x with traffic }
  | .outgoing a => (x.transmission.step a).map fun transmission => { x with transmission }

def Reached (start : Exchange clients rxDepth txDepth stamps) :
    Exchange clients rxDepth txDepth stamps → Prop :=
  Run Allows step start

def sending (s : Station) (frame : List UInt8) : Action :=
  .outgoing (.send s.priority s.txClient frame false s.now)

def receiving (s : Station) : Action :=
  .incoming (.collect s.rxClient Frame.maxTaggedSize)

/-- A frame of the stack is one new frame of its client, with all its bytes. -/
structure Sends (s : Station) (line : Line) (frame : List UInt8)
    (y : Exchange clients rxDepth txDepth stamps) : Prop where
  transmit_eq : s.transmit (x.interface line) frame = .ok (y.interface line)
  step_eq : x.step (sending s frame) = .ok y
  accepted : ∃ (i : Fin clients) (h : Handle) (pool : Pool), i.val = s.txClient ∧
    x.transmission.Accepts s.priority i frame false s.now h y.transmission.scheduler pool ∧
      y.transmission.pools = x.transmission.pools.set s.priority pool
  traffic_eq : y.traffic = x.traffic

/-- The stack gets the oldest frame that waits for its client, with all the bytes that are meant for the
client. -/
structure Receives (s : Station) (line : Line) (got : List UInt8)
    (y : Exchange clients rxDepth txDepth stamps) : Prop where
  receive_eq : s.receive (x.interface line) = .ok (got, y.interface line)
  step_eq : x.step (receiving s) = .ok y
  oldest : ∃ (i : Fin clients) (done rest : List Ingress.Parcel) (e : Ingress.Parcel),
    i.val = s.rxClient ∧ x.traffic.delivered i = done ++ e :: rest ∧
      done.length = (x.traffic.collected i).length ∧
      rest.length + 1 = (x.traffic.client i).queue.size ∧
      (x.traffic.issued.get e.priority)[e.number]? = some e.record ∧
      got = Dispatcher.content (x.traffic.client i).stripsTag
        (Frame.Tagged e.record.payload) e.record.payload
  nonempty : got ≠ []
  transmission_eq : y.transmission = x.transmission

structure Serves (s : Station) (line : Line) : Prop where
  transmits : ∃ offered, s.canTransmit (x.interface line) = .ok offered ∧
    ∀ n ≤ Station.maxFrame, ∀ fill, (Station.filled n fill).length = n ∧
      ∃ y, s.attemptTransmit (x.interface line) (Station.filled n fill) =
          .ok (offered, y.interface line) ∧
        (offered = false → y = x) ∧ (offered = true → x.Sends s line (Station.filled n fill) y)
  receives : ∃ answer y, s.canReceive (x.interface line) = .ok answer.isSome ∧
    s.attemptReceive (x.interface line) = .ok (answer, y.interface line) ∧
      (answer = none → y = x) ∧
      ∀ got, answer = some got →
        x.Receives s line got y ∧ s.canTransmit (x.interface line) = .ok true
  /-- A frame that is offered with room for an answer may be got before or after the answer is sent. -/
  either_order : ∀ got y frame z, x.Receives s line got y → x.Sends s line frame z →
    ∃ w, y.Sends s line frame w ∧ z.Receives s line got w

variable {x} {s : Station} {line : Line} {frame got : List UInt8}
  {start y : Exchange clients rxDepth txDepth stamps}

theorem transmit_eq_step (x : Exchange clients rxDepth txDepth stamps) (s : Station) (line : Line)
    (frame : List UInt8) : s.transmit (x.interface line) frame =
      (x.step (sending s frame)).map (·.interface line) := by
  change (x.interface line).send _ _ _ _ _ >>= _ =
    ((x.transmission.send _ _ _ _ _).map _).map _
  unfold Interface.send Transmission.send
  change (x.transmission.scheduler.send (x.transmission.pools.get s.priority) _ _ _ _ >>= _) >>= _ = _
  rcases x.transmission.scheduler.send (x.transmission.pools.get s.priority) s.txClient frame false
    s.now with _ | ⟨scheduler, pool, answer⟩
  · rfl
  · cases answer <;> rfl

theorem step_incoming_iff {a : Ingress.Action} : x.step (.incoming a) = .ok y ↔
    x.traffic.step a = .ok y.traffic ∧ y.transmission = x.transmission := by
  change (x.traffic.step a).map _ = _ ↔ _
  cases x.traffic.step a with
  | error e => simp [Except.map]
  | ok t =>
    obtain ⟨traffic, transmission⟩ := y
    simp [Except.map, eq_comm]

theorem step_outgoing_iff {a : Transmission.Action} : x.step (.outgoing a) = .ok y ↔
    x.transmission.step a = .ok y.transmission ∧ y.traffic = x.traffic := by
  change (x.transmission.step a).map _ = _ ↔ _
  cases x.transmission.step a with
  | error e => simp [Except.map]
  | ok t =>
    obtain ⟨traffic, transmission⟩ := y
    simp [Except.map, eq_comm, and_comm]

theorem Reached.sides (h : Reached start x) :
    start.traffic.Reached x.traffic ∧ start.transmission.Reached x.transmission := by
  refine Run.invariant (P := fun u : Exchange clients rxDepth txDepth stamps =>
    start.traffic.Reached u.traffic ∧ start.transmission.Reached u.transmission) h
    ⟨.start, .start⟩ fun u a v hu ha hs => ?_
  cases a with
  | incoming a =>
    obtain ⟨hstep, hsame⟩ := step_incoming_iff.mp hs
    exact ⟨hu.1.step a ha hstep, hsame ▸ hu.2⟩
  | outgoing a =>
    obtain ⟨hstep, hsame⟩ := step_outgoing_iff.mp hs
    exact ⟨hsame ▸ hu.1, hu.2.step a ha hstep⟩

theorem Sends.beside {z : Exchange clients rxDepth txDepth stamps} (h : x.Sends s line frame z)
    (t : Traffic clients rxDepth) :
    Sends { x with traffic := t } s line frame { z with traffic := t } := by
  have hstep : Exchange.step { x with traffic := t } (sending s frame) =
      .ok { z with traffic := t } :=
    step_outgoing_iff.mpr ⟨(step_outgoing_iff.mp h.step_eq).1, rfl⟩
  refine ⟨(transmit_eq_step _ s line frame).trans ?_, hstep, h.accepted, rfl⟩
  rw [hstep]
  rfl

theorem Receives.beside (h : x.Receives s line got y) (t : Transmission clients txDepth stamps) :
    Receives { x with transmission := t } s line got { y with transmission := t } := by
  have hstep : Exchange.step { x with transmission := t } (receiving s) =
      .ok { y with transmission := t } :=
    step_incoming_iff.mpr ⟨(step_incoming_iff.mp h.step_eq).1, rfl⟩
  refine ⟨?_, hstep, h.oldest, h.nonempty, rfl⟩
  refine (s.receive_beside (x.interface line) t.scheduler t.pools).trans ?_
  rw [h.receive_eq]
  rfl

/-- Where there is room for the longest frame there is room for every frame that the stack may send. -/
theorem exists_sends (h : x.transmission.Balanced) (ht : s.canTransmit (x.interface line) = .ok true)
    (hn : frame.length ≤ Station.maxFrame) : ∃ z, x.Sends s line frame z := by
  rw [Station.canTransmit_eq s (h.priority_eq s.priority), Except.ok.injEq, Bool.and_eq_true,
    decide_eq_true_eq] at ht
  obtain ⟨hslot, hspace⟩ := ht
  have hmax : payloadOffset + Station.maxFrame + 3 < sizeLimit := by decide
  have hroom : (x.transmission.pools.get s.priority).canHold frame.length = .ok true := by
    rw [Pool.canHold_eq _ (by omega), Except.ok.injEq, decide_eq_true_eq]
    exact (max_le_max_left _ (extent_mono hn)).trans hspace
  let i : Fin clients := ⟨s.txClient, Scheduler.client_lt_of_canSend hslot⟩
  have hs : x.transmission.scheduler.canSend i s.priority = true := hslot
  obtain ⟨scheduler, pool, hd, -, -, hsend, haccepts⟩ := h.accepts hs hroom false s.now
  let z : Exchange clients rxDepth txDepth stamps := { x with transmission := {
    x.transmission with
    scheduler
    pools := x.transmission.pools.set s.priority pool
    ledger := x.transmission.ledger.accept s.priority i frame { timestamp := s.now } hd } }
  have hstep : x.step (sending s frame) = .ok z := by
    refine step_outgoing_iff.mpr ⟨?_, rfl⟩
    change x.transmission.send s.priority i frame false s.now = _
    rw [Transmission.send, hsend]
    rfl
  refine ⟨z, ?_, hstep, ⟨i, hd, pool, rfl, haccepts, rfl⟩, rfl⟩
  rw [transmit_eq_step, hstep]
  rfl

/-- A frame that waits is not longer than what the stack has room for. -/
theorem exists_receives {Q : Fin clients → List Handle} (h : x.traffic.Tracked Q)
    (hr : (x.traffic.reception.dispatcher.client? s.rxClient).any Client.isReady = true) :
    ∃ got y, x.Receives s line got y := by
  obtain ⟨k, hk, hawaited⟩ := h.balanced.exists_awaited hr
  rcases h.collect_cases s.rxClient Frame.maxTaggedSize with
    ⟨hempty, -⟩ | ⟨i, u, hs, session, j, r, hi, hdispatch, hcollect, hu⟩
  · exact absurd (hempty k hk) hawaited
  obtain ⟨done, e, rest, hd, hfits, hdescribes, hrest⟩ := h.oldest hu
  have hmem : e ∈ x.traffic.delivered i := by
    rw [hd]
    exact List.mem_append_right _ List.mem_cons_self
  have hframed := h.framed i e hmem
  let strips := (x.traffic.client i).stripsTag
  have hlength := hframed.length_content strips
  have hbytes : (Dispatcher.answer strips Frame.maxTaggedSize r).bytes = e.content strips := by
    change (Dispatcher.content strips r.header.tagged r.payload).take _ = _
    rw [hdescribes.tagged_eq, hdescribes.payload_eq]
    exact List.take_of_length_le hlength.2
  have hsize : rest.length + 1 = (x.traffic.client i).queue.size := by
    rw [h.size_eq, hu.front_eq, hrest.length_eq]
    rfl
  let traffic := x.traffic.handed s.rxClient Frame.maxTaggedSize
    (Dispatcher.answer strips Frame.maxTaggedSize r) u
  refine ⟨e.content strips, { x with traffic }, ?_, step_incoming_iff.mpr ⟨hcollect, rfl⟩,
    ⟨i, done, rest, e, hi, hd, hfits.length_eq, hsize, ?_, ?_⟩, ?_, rfl⟩
  · unfold Station.receive Interface.collect
    change (x.traffic.reception.dispatcher.collect s.rxClient x.traffic.reception.pools _ >>= _) >>=
      _ = _
    rw [hdispatch]
    exact congrArg (fun bytes => Except.ok (bytes, _)) hbytes
  · exact (h.genuine i e hmem).2
  · rw [Ingress.Parcel.content, hframed.tagged_eq]
  · exact List.ne_nil_of_length_pos (Nat.lt_of_lt_of_le (by decide) hlength.1)

theorem serves {Q : Fin clients → List Handle} (ht : x.traffic.Tracked Q)
    (hb : x.transmission.Balanced) (s : Station) (line : Line) : x.Serves s line := by
  obtain ⟨offered, hcan⟩ : ∃ offered, s.canTransmit (x.interface line) = .ok offered :=
    ⟨_, Station.canTransmit_eq s (hb.priority_eq s.priority)⟩
  have hasked := s.canReceive_eq hcan
  refine ⟨⟨offered, hcan, fun n hn fill => ?_⟩, ?_, fun got y frame z hy hz => ?_⟩
  · have hlength := Station.length_filled hn fill
    refine ⟨hlength, ?_⟩
    cases offered with
    | false =>
      refine ⟨x, ?_, fun _ => rfl, nofun⟩
      rw [Station.attemptTransmit, hcan]
      rfl
    | true =>
      obtain ⟨z, hz⟩ := exists_sends hb hcan (hlength.trans_le hn)
      refine ⟨z, ?_, nofun, fun _ => hz⟩
      rw [Station.attemptTransmit, hcan, ok_bind, if_pos rfl, hz.transmit_eq]
      rfl
  · cases hready : ((x.interface line).dispatcher.client? s.rxClient).any Client.isReady &&
      offered with
    | false =>
      rw [hready] at hasked
      refine ⟨none, x, hasked, ?_, fun _ => rfl, nofun⟩
      rw [Station.attemptReceive, hasked]
      rfl
    | true =>
      rw [hready] at hasked
      obtain ⟨hwaits, rfl⟩ := Bool.and_eq_true_iff.mp hready
      obtain ⟨got, y, hy⟩ := exists_receives ht hwaits
      refine ⟨some got, y, hasked, ?_, nofun, fun _ hgot => ?_⟩
      · rw [Station.attemptReceive, hasked, ok_bind, if_pos rfl, hy.receive_eq]
        rfl
      · obtain rfl := Option.some.inj hgot
        exact ⟨hy, hcan⟩
  · obtain ⟨traffic, _⟩ := y
    obtain ⟨_, transmission⟩ := z
    obtain rfl := hy.transmission_eq
    obtain rfl := hz.traffic_eq
    exact ⟨⟨traffic, transmission⟩, hz.beside traffic, hy.beside transmission⟩

/-- What a stack sends on an offer is queued as it was filled, and what it gets is the whole of the
oldest frame. -/
theorem reached_serves (policy : Policy) (low : Pool) (high : Option Pool) (txLow txHigh : Pool)
    (hlow : low.Fresh .low) (hhigh : ∀ pool ∈ high, pool.Fresh .high) (htxLow : txLow.Fresh .low)
    (htxHigh : txHigh.Fresh .high) :
    ∃ pools, PoolPair.create low high = .ok pools ∧
      ∀ x : Exchange clients rxDepth txDepth stamps,
        Reached (begin policy pools txLow txHigh) x → ∀ s line, x.Serves s line := by
  refine ⟨_, PoolPair.create_fresh hlow hhigh, fun x hx s line => ?_⟩
  obtain ⟨Q, ht⟩ := hx.sides.1.tracked (.begin policy hlow hhigh)
  exact serves ht (hx.sides.2.balanced htxLow htxHigh) s line

/-- The frame that waits loses its tag, and the stack sends the longest frame that it may. -/
theorem reached_serves_tagged :
    ∃ low txLow txHigh pools, ∃ x : Exchange 2 2 1 1, Pool.Fresh low .low ∧
      Pool.Fresh txLow .low ∧ Pool.Fresh txHigh .high ∧ PoolPair.create low none = .ok pools ∧
      Reached (begin .lowFirst pools txLow txHigh) x ∧
      let s : Station := { rxClient := 0, txClient := 1, priority := .low, now := 9 }
      let got := .replicate 12 2 ++ [4, 4, 7]
      let frame := .replicate 1514 5
      (∃ y z w, x.Receives s {} got y ∧ y.Sends s {} frame w ∧ x.Sends s {} frame z ∧
        z.Receives s {} got w) ∧
      Station.attemptReceive { s with rxClient := 1 } (x.interface {}) =
        .ok (none, x.interface {}) := by
  let low : Pool := { arena := .replicate 200 0, priority := .low, roomy := by decide +kernel }
  let room (p : Priority) : Pool :=
    { arena := .replicate 1560 0, priority := p, roomy := by decide +kernel }
  have hlow : low.Fresh .low := ⟨.replicate 200 0, by decide +kernel, dif_pos low.roomy⟩
  have hnone : ∀ pool ∈ none, Pool.Fresh pool .high := by simp
  have hroom (p : Priority) : (room p).Fresh p :=
    ⟨.replicate 1560 0, by decide +kernel, dif_pos (room p).roomy⟩
  let first : Directory := fun _ => some ⟨.ofList false [0], 5⟩
  let s : Station := { rxClient := 0, txClient := 1, priority := .low, now := 9 }
  let actions : List Action := [.incoming (.configure 0 (.stripTag true)),
    .incoming (.produce .low .reserve),
    .incoming (.produce .low (.write (.replicate 12 2 ++ [0x81, 0, 0, 9] ++ [4, 4, 7]))),
    .incoming (.produce .low (.commit { timestamp := 5, line := 3 })),
    .incoming (.process first {})]
  let start : Exchange 2 2 1 1 := begin .lowFirst ⟨low, none⟩ (room .low) (room .high)
  have hrun : (perform Allows step start actions).map (fun x =>
      ((s.receive (x.interface {})).toOption.map Prod.fst,
        (s.canReceive (x.interface {})).toOption,
        (Station.canReceive { s with rxClient := 1 } (x.interface {})).toOption)) =
      some (some (.replicate 12 2 ++ [4, 4, 7]), some true, some false) := by
    decide +kernel
  obtain ⟨x, hx, he⟩ := Option.map_eq_some_iff.mp hrun
  simp only [Prod.mk.injEq, toOption_eq_some_iff] at he
  obtain ⟨hgot, hoffered, hrefused⟩ := he
  obtain ⟨pools, hp, h⟩ := @reached_serves 2 2 1 1 _ _ .lowFirst low none (room .low) (room .high)
    hlow hnone (hroom .low) (hroom .high)
  obtain rfl := Except.ok.inj (hp.symm.trans (PoolPair.create_fresh hlow hnone))
  have hreached : Reached start x := Run.of_perform hx
  have hserves := h x hreached s {}
  refine ⟨low, room .low, room .high, _, x, hlow, hroom .low, hroom .high, hp, hreached, ?_, ?_⟩
  · obtain ⟨answer, y, hcan, -, -, hreceives⟩ := hserves.receives
    obtain ⟨got, rfl⟩ := Option.isSome_iff_exists.mp (Except.ok.inj (hcan.symm.trans hoffered))
    obtain ⟨hy, hroom⟩ := hreceives got rfl
    rw [hy.receive_eq] at hgot
    obtain rfl := Option.some.inj hgot
    obtain ⟨offered, hcan, htransmits⟩ := hserves.transmits
    obtain rfl := Except.ok.inj (hcan.symm.trans hroom)
    obtain ⟨-, z, -, -, hz⟩ := htransmits 1514 le_rfl fun zeros => zeros.map (· + 5)
    have hframe : Station.filled 1514 (fun zeros => zeros.map (· + 5)) = .replicate 1514 5 := by
      rw [Station.filled, Vector.map_replicate, Vector.toList_replicate]
      rfl
    rw [hframe] at hz
    obtain ⟨w, hyw, hzw⟩ := hserves.either_order _ y _ z hy (hz rfl)
    exact ⟨y, z, w, hy, hyw, hz rfl, hzw⟩
  · obtain ⟨answer, y, hcan, hattempt, hsame, -⟩ :=
      (h x hreached { s with rxClient := 1 } {}).receives
    obtain rfl := Option.not_isSome_iff_eq_none.mp
      (ne_true_of_eq_false (Except.ok.inj (hcan.symm.trans hrefused)))
    rw [hattempt, hsame rfl]

end Exchange

end EtherBuffer
