import EtherBuffer.Proofs.Egress.Balance
import EtherBuffer.Proofs.Queue.Stamps

/-! Times of departure, with the books of what was sent, of what left the wire and when, and of what was
fetched. -/
namespace EtherBuffer.Egress

open Link

/-- A parcel that left the wire. -/
structure Departure where
  parcel : Parcel
  timed : Bool
  stamp : UInt32
  line : Line
  /-- How many times were reported before it left, and not fetched. -/
  pending : ℕ

namespace Departure

/-- When the parcel left, corrected for the speed of the line. -/
def time (d : Departure) : UInt32 :=
  d.stamp + d.line.egressLatency[d.line.speed.index]

/-- The time is asked for, by a client whose number a record can hold. -/
def Asks (d : Departure) : Prop :=
  d.timed = true ∧ UInt32.ofNat d.parcel.client + 1 ≠ 0
  deriving Decidable

/-- The time is asked for, and there is no room for it. -/
def Missed (stamps : ℕ) (d : Departure) : Prop :=
  d.Asks ∧ stamps ≤ d.pending
  deriving Decidable

/-- What the client should be told. -/
def report (stamps : ℕ) (d : Departure) : Option Stamp :=
  if d.Asks ∧ d.pending < stamps then some ⟨.ofNat d.parcel.client, d.time⟩ else none

end Departure

structure Timetable (clients depth stamps : ℕ) where
  transmission : Transmission clients depth stamps
  /-- With or without a request for the time. -/
  sent : List (Parcel × Bool) := []
  departed : List Departure := []
  fetched : List Stamp := []

namespace Scheduler

variable {clients depth stamps : ℕ} {s : Scheduler clients depth stamps} {waiting : List Stamp}

theorem report_cases (h : s.departures.Holds waiting) (stampId time : UInt32) :
    stampId = 0 ∧ s.report stampId time = s ∨
      stampId ≠ 0 ∧ waiting.length < stamps ∧ (∃ departures,
        s.report stampId time = { s with departures } ∧
          departures.Holds (waiting ++ [⟨stampId - 1, time⟩])) ∨
      stampId ≠ 0 ∧ stamps ≤ waiting.length ∧
        s.report stampId time = { s with stampsDropped := s.stampsDropped + 1 } := by
  unfold report
  split_ifs with hid
  · exact .inl ⟨hid, rfl⟩
  · refine .inr ?_
    rcases Nat.lt_or_ge waiting.length stamps with hroom | hfull
    · obtain ⟨departures, hadd, hholds⟩ := h.add hroom ⟨stampId - 1, time⟩
      exact .inl ⟨hid, hroom, departures, by rw [hadd], hholds⟩
    · exact .inr ⟨hid, hfull, by rw [h.add_full hfull]⟩

end Scheduler

namespace Timetable

open Transmission

variable {clients depth stamps : ℕ}

section

variable (t : Timetable clients depth stamps)

def reports : List Stamp :=
  t.departed.filterMap (Departure.report stamps)

def unfetched : ℕ :=
  t.reports.length - t.fetched.length

def note (y : Transmission clients depth stamps) : Action → Timetable clients depth stamps
  | .send _ _ _ timed _ =>
    { t with
      transmission := y
      sent := t.sent ++
        (y.ledger.accepted.drop t.transmission.ledger.accepted.length).map (·, timed) }
  | .complete stamp _ line =>
    { t with
      transmission := y
      departed := t.departed ++
        (y.ledger.completed.drop t.transmission.ledger.completed.length).map fun e =>
          ⟨e, decide ((e, true) ∈ t.sent), stamp, line, t.unfetched⟩ }
  | .takeDeparture =>
    { t with
      transmission := y
      fetched := t.fetched ++ t.transmission.scheduler.takeDeparture.1.toList }
  | .select _ _ | .resetShaper _ => { t with transmission := y }

end

variable [Positive depth]

def begin (low high : Pool) : Timetable clients depth stamps where
  transmission := .begin low high

def step (t : Timetable clients depth stamps) (a : Action) :
    Except Fault (Timetable clients depth stamps) :=
  (t.transmission.step a).map (t.note · a)

def Reached (start : Timetable clients depth stamps) : Timetable clients depth stamps → Prop :=
  Run (fun _ (a : Action) => a.Fits) step start

variable {t u : Timetable clients depth stamps} {x y : Transmission clients depth stamps}

/-- The books agree with the scheduler and with the records. -/
structure Exact (t : Timetable clients depth stamps) : Prop where
  balanced : t.transmission.Balanced
  sent_eq : t.sent.map Prod.fst = t.transmission.ledger.accepted
  /-- A record holds the number of its client. -/
  stamped : ∀ m ∈ t.sent, ∃ r ∈ (t.transmission.ledger.receipts.get m.1.priority)[m.1.number]?,
    r.header.stampId = if m.2 then .ofNat m.1.client + 1 else 0
  departed_eq : t.departed.map (·.parcel) = t.transmission.ledger.completed
  flagged : ∀ d ∈ t.departed, (d.parcel, d.timed) ∈ t.sent
  told : ∃ waiting, t.transmission.scheduler.departures.Holds waiting ∧
    t.reports = t.fetched ++ waiting
  dropped_eq : t.transmission.scheduler.stampsDropped =
    .ofNat (t.departed.countP (Departure.Missed stamps ·))

namespace Exact

theorem begin {low high : Pool} (hlow : low.Fresh .low) (hhigh : high.Fresh .high) :
    (Timetable.begin low high : Timetable clients depth stamps).Exact where
  balanced := .begin hlow hhigh
  sent_eq := rfl
  stamped _ hm := absurd hm List.not_mem_nil
  departed_eq := rfl
  flagged _ hd := absurd hd List.not_mem_nil
  told := ⟨[], .empty, rfl⟩
  dropped_eq := rfl

theorem quiet (h : t.Exact) (hy : y.Balanced) (hledger : y.ledger = t.transmission.ledger)
    (hdepartures : y.scheduler.departures = t.transmission.scheduler.departures)
    (hdropped : y.scheduler.stampsDropped = t.transmission.scheduler.stampsDropped) :
    Exact { t with transmission := y } where
  balanced := hy
  sent_eq := by rw [hledger, ← h.sent_eq]
  stamped := by
    rw [hledger]
    exact h.stamped
  departed_eq := by rw [hledger, ← h.departed_eq]
  flagged := h.flagged
  told := by
    rw [hdepartures]
    exact h.told
  dropped_eq := hdropped.trans h.dropped_eq

theorem select (h : t.Exact) (line : Line) (now : UInt32) :
    Exact { t with transmission := t.transmission.select line now } := by
  obtain ⟨shaper, armed, he⟩ := t.transmission.scheduler.exists_select_eq line now
  have hdepartures := congrArg Scheduler.departures he
  have hdropped := congrArg Scheduler.stampsDropped he
  exact h.quiet (h.balanced.select line now) rfl hdepartures hdropped

theorem fetch (h : t.Exact) (hy : Balanced { t.transmission with
      scheduler := t.transmission.scheduler.takeDeparture.2 }) :
    (t.note { t.transmission with scheduler := t.transmission.scheduler.takeDeparture.2 }
      .takeDeparture).Exact := by
  obtain ⟨waiting, hwaiting, hreports⟩ := h.told
  obtain ⟨q, hpop, hq⟩ := hwaiting.pop
  have htake : t.transmission.scheduler.takeDeparture =
      (waiting.head?, { t.transmission.scheduler with departures := q }) := by
    rw [Scheduler.takeDeparture, hpop]
  refine ⟨hy, h.sent_eq, h.stamped, h.departed_eq, h.flagged, ?_, ?_⟩
  · refine ⟨waiting.tail, ?_, ?_⟩
    · change (t.transmission.scheduler.takeDeparture.2).departures.Holds waiting.tail
      rw [htake]
      exact hq
    · change t.reports = (t.fetched ++ t.transmission.scheduler.takeDeparture.1.toList) ++ _
      rw [htake, hreports, List.append_assoc]
      cases waiting <;> rfl
  · change (t.transmission.scheduler.takeDeparture.2).stampsDropped = _
    rw [htake]
    exact h.dropped_eq

theorem accept (h : t.Exact) (hy : y.Balanced) {p : Priority} {client : ℕ} {frame : List UInt8}
    {timed : Bool} {now : UInt32} {hd : Handle}
    (hledger : y.ledger = t.transmission.ledger.accept p client frame
      { timestamp := now, stampId := if timed then .ofNat client + 1 else 0 } hd)
    (hs : ∃ queues, y.scheduler = { t.transmission.scheduler with queues }) :
    (t.note y (.send p client frame timed now)).Exact := by
  let l := t.transmission.ledger
  let e := l.next p client frame hd
  have hsent : (t.note y (.send p client frame timed now)).sent = t.sent ++ [(e, timed)] := by
    change t.sent ++ (y.ledger.accepted.drop _).map _ = _
    rw [hledger]
    change t.sent ++ ((l.accepted ++ [e]).drop l.accepted.length).map _ = _
    rw [List.drop_left]
    rfl
  obtain ⟨queues, hs⟩ := hs
  refine ⟨hy, ?_, ?_, ?_, ?_, ?_, ?_⟩
  · rw [hsent, List.map_append, h.sent_eq]
    exact (congrArg Ledger.accepted hledger).symm
  · rw [hsent]
    intro m hm
    change ∃ r ∈ (y.ledger.receipts.get m.1.priority)[m.1.number]?, _
    rw [hledger]
    rcases List.mem_append.mp hm with hm | hm
    · obtain ⟨r, hr, hid⟩ := h.stamped m hm
      rw [l.getElem?_accept_of_lt _ _ _ _ _ (List.getElem?_eq_some_iff.mp hr).1]
      exact ⟨r, hr, hid⟩
    · rw [List.mem_singleton.mp hm]
      exact ⟨_, l.getElem?_accept_next _ _ _ _ _, rfl⟩
  · exact h.departed_eq.trans (congrArg Ledger.completed hledger).symm
  · intro d hd
    rw [hsent]
    exact List.mem_append_left _ (h.flagged d hd)
  · change ∃ waiting, y.scheduler.departures.Holds waiting ∧ _
    rw [hs]
    exact h.told
  · change y.scheduler.stampsDropped = _
    rw [hs]
    exact h.dropped_eq

theorem sent_nodup (h : t.Exact) :
    (t.sent.map fun m => (m.1.priority, m.1.number)).Nodup := by
  have hnd := h.balanced.consistent.numbers_nodup (fun _ he => he)
    h.balanced.consistent.accepted_nodup
  rwa [← h.sent_eq, List.map_map] at hnd

theorem exists_flag (h : t.Exact) {e : Parcel} (he : e ∈ t.transmission.ledger.accepted) :
    (e, decide ((e, true) ∈ t.sent)) ∈ t.sent := by
  rw [← h.sent_eq] at he
  obtain ⟨⟨e, timed⟩, hm, rfl⟩ := List.mem_map.mp he
  cases timed with
  | true => rwa [decide_eq_true hm]
  | false =>
    rw [decide_eq_false]
    · exact hm
    · intro hm'
      have := List.inj_on_of_nodup_map h.sent_nodup hm hm' rfl
      cases this

theorem report (h : t.Exact) {d : Departure} (hpending : d.pending = t.unfetched) {stampId : UInt32}
    (hid : stampId = if d.timed then .ofNat d.parcel.client + 1 else 0) :
    let s := t.transmission.scheduler.report stampId d.time
    (∃ waiting, s.departures.Holds waiting ∧
        t.reports ++ (d.report stamps).toList = t.fetched ++ waiting) ∧
      s.stampsDropped = .ofNat ((t.departed ++ [d]).countP (Departure.Missed stamps ·)) := by
  intro s
  obtain ⟨waiting, hwaiting, hreports⟩ := h.told
  have hlength : waiting.length = d.pending := by
    rw [hpending, unfetched, hreports, List.length_append, Nat.add_sub_cancel_left]
  have hasks : d.Asks ↔ stampId ≠ 0 := by
    rw [hid, Departure.Asks]
    cases d.timed <;> simp
  have hcount : (t.departed ++ [d]).countP (Departure.Missed stamps ·) =
      t.departed.countP (Departure.Missed stamps ·) + if d.Missed stamps then 1 else 0 := by
    rw [List.countP_append, List.countP_singleton]
    simp only [decide_eq_true_eq]
  rw [hcount]
  rcases Scheduler.report_cases hwaiting stampId d.time with
    ⟨hzero, he⟩ | ⟨hne, hroom, departures, he, hholds⟩ | ⟨hne, hfull, he⟩
  · have hno : ¬ d.Asks := fun ha => hasks.mp ha hzero
    have hs : s = t.transmission.scheduler := he
    rw [hs, Departure.report, if_neg fun hc => hno hc.1, if_neg fun hc => hno hc.1]
    exact ⟨⟨waiting, hwaiting, by rw [hreports]; exact List.append_nil _⟩, h.dropped_eq⟩
  · have ha : d.Asks := hasks.mpr hne
    have hclient : stampId - 1 = .ofNat d.parcel.client := by
      rw [hid, if_pos ha.1]
      exact UInt32.add_sub_cancel _ _
    have hs : s = { t.transmission.scheduler with departures } := he
    rw [hs, Departure.report, if_pos ⟨ha, hlength ▸ hroom⟩, if_neg fun hc => by
      have := hc.2
      omega]
    rw [hclient] at hholds
    exact ⟨⟨_, hholds, by rw [hreports, List.append_assoc]; rfl⟩, h.dropped_eq⟩
  · have ha : d.Asks := hasks.mpr hne
    have hs : s = { t.transmission.scheduler with
        stampsDropped := t.transmission.scheduler.stampsDropped + 1 } := he
    rw [hs, Departure.report, if_neg fun hc => by
      have := hc.2
      omega, if_pos ⟨ha, hlength ▸ hfull⟩]
    refine ⟨⟨waiting, hwaiting, by rw [hreports]; exact List.append_nil _⟩, ?_⟩
    rw [UInt32.ofNat_add, ← h.dropped_eq]
    rfl

theorem complete (h : t.Exact) {sel : Selection} (hsel : t.transmission.pending = some sel)
    (stamp stop : UInt32) (line : Line) : ∃ y, t.transmission.complete stamp stop line = .ok y ∧
      (t.note y (.complete stamp stop line)).Exact := by
  obtain ⟨y, e, r, hcomplete, hy, he, hr, hheader, hs, hledger⟩ :=
    h.balanced.complete_ledger hsel stamp stop line
  refine ⟨y, hcomplete, ?_⟩
  obtain ⟨hacc, -⟩ := h.balanced.consistent.mem_waiting.mp he
  let l := t.transmission.ledger
  let d : Departure := ⟨e, decide ((e, true) ∈ t.sent), stamp, line, t.unfetched⟩
  have hflag : (d.parcel, d.timed) ∈ t.sent := h.exists_flag hacc
  have hdeparted : (t.note y (.complete stamp stop line)).departed = t.departed ++ [d] := by
    change t.departed ++ (y.ledger.completed.drop _).map _ = _
    rw [hledger]
    change t.departed ++ ((l.completed ++ [e]).drop l.completed.length).map _ = _
    rw [List.drop_left]
    rfl
  -- The header that is read is that of the receipt, which still has what the sender wrote.
  obtain ⟨r', hr', hid⟩ := h.stamped _ hflag
  obtain rfl : r = r' := Option.some.inj (hr.symm.trans hr')
  obtain ⟨header, shaper, i, q, hheader', -, -, hscheduler⟩ := Scheduler.complete_cases hs
  obtain rfl := Except.ok.inj (hheader.symm.trans hheader')
  obtain ⟨⟨waiting, hwaiting, htold⟩, hdropped⟩ := h.report (d := d) rfl hid
  refine ⟨hy, ?_, ?_, ?_, ?_, ⟨waiting, ?_, ?_⟩, ?_⟩
  · exact h.sent_eq.trans (congrArg Ledger.accepted hledger).symm
  · intro m hm
    change ∃ r ∈ (y.ledger.receipts.get m.1.priority)[m.1.number]?, _
    obtain ⟨r, hr, hid⟩ := h.stamped m hm
    rw [hledger, l.getElem?_complete, Option.mem_def.mp hr]
    refine ⟨_, rfl, Eq.trans ?_ hid⟩
    dsimp only
    split_ifs <;> rfl
  · rw [hdeparted, List.map_append, h.departed_eq]
    exact (congrArg Ledger.completed hledger).symm
  · rw [hdeparted]
    intro d' hd'
    rcases List.mem_append.mp hd' with hd' | hd'
    · exact h.flagged d' hd'
    · rw [List.mem_singleton.mp hd']
      exact hflag
  · change y.scheduler.departures.Holds waiting
    rw [hscheduler]
    exact hwaiting
  · rw [reports, hdeparted, List.filterMap_append]
    have hsingle : [d].filterMap (Departure.report stamps) = (d.report stamps).toList := by
      cases hreport : d.report stamps <;> simp [hreport]
    rw [hsingle]
    exact htold
  · change y.scheduler.stampsDropped = _
    rw [hdeparted, hscheduler]
    exact hdropped

theorem step (h : t.Exact) {a : Action} (ha : a.Fits) : ∃ u, t.step a = .ok u ∧ u.Exact := by
  cases a with
  | send p client frame timed now =>
    rcases h.balanced.send_ledger p client ha timed now with he | ⟨y, hd, he, hy, hs, hledger⟩
    · refine ⟨t.note t.transmission (.send p client frame timed now), ?_, ?_⟩
      · rw [Timetable.step, Transmission.step, he]
        rfl
      · have hnote : t.note t.transmission (.send p client frame timed now) = t := by
          rw [note, List.drop_length, List.map_nil, List.append_nil]
        rw [hnote]
        exact h
    · exact ⟨t.note y _, by rw [Timetable.step, Transmission.step, he]; rfl,
        h.accept hy hledger hs⟩
  | select line now => exact ⟨_, rfl, h.select line now⟩
  | complete stamp stop line =>
    cases hsel : t.transmission.pending with
    | none =>
      refine ⟨t, ?_, h⟩
      rw [Timetable.step, Transmission.step, Transmission.complete, hsel]
      change Except.ok (t.note t.transmission _) = _
      rw [note, List.drop_length, List.map_nil, List.append_nil]
    | some sel =>
      obtain ⟨y, he, hy⟩ := h.complete hsel stamp stop line
      exact ⟨t.note y _, by rw [Timetable.step, Transmission.step, he]; rfl, hy⟩
  | takeDeparture =>
    obtain ⟨y, he, hy⟩ := h.balanced.step (a := .takeDeparture) trivial
    obtain rfl := Except.ok.inj he
    exact ⟨_, rfl, h.fetch hy⟩
  | resetShaper now =>
    obtain ⟨y, he, hy⟩ := h.balanced.step (a := .resetShaper now) trivial
    obtain rfl := Except.ok.inj he
    exact ⟨_, rfl, h.quiet hy rfl rfl rfl⟩

end Exact

theorem Reached.exact {low high : Pool} (ht : Reached (begin low high) t) (hlow : low.Fresh .low)
    (hhigh : high.Fresh .high) : t.Exact := by
  refine Run.invariant ht (.begin hlow hhigh) fun u a v hu ha hs => ?_
  obtain ⟨w, hw, hexact⟩ := hu.step ha
  obtain rfl := Except.ok.inj (hw.symm.trans hs)
  exact hexact

end Timetable

end EtherBuffer.Egress
