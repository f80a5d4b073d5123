import EtherBuffer.Proofs.Pool.Frame
import EtherBuffer.Proofs.Run

/-! Several reservations in use at a time, which all name one place. The first commit takes it. -/
namespace EtherBuffer
open Record

namespace Pool

/-- The bytes that were written, as the arena has them. -/
def content (p : Pool) : Reservation → List UInt8
  | .region r => p.bytes (r.offset + payloadOffset) r.written
  | .sink _ => []

/-- How far records lead on from a position. -/
def distance (p : Pool) (start : ℕ) (rs : List Receipt) : ℕ :=
  Receipt.stop p.capacity start rs - start

/-- The region lies where the write position was before the records were committed. -/
structure Traces (p : Pool) (r : Region) (since : List Receipt) : Prop where
  offset_lt : r.offset < p.capacity
  room_le : payloadOffset + r.written + r.room ≤ p.capacity
  writeOffset_eq : p.writeOffset = Receipt.stop p.capacity r.offset since % p.capacity
  first_eq : ∀ u ∈ since.head?, u.handle = .at p.priority r.offset

theorem freeSpace_le {p : Pool} (h : p.readOffset < p.capacity) : p.freeSpace ≤ p.capacity := by
  unfold freeSpace
  split_ifs <;> omega

theorem traces_reserve {p : Pool} (hw : p.writeOffset < p.capacity) (hr : p.readOffset < p.capacity)
    {r : Region} (h : p.reserve = .region r) : p.Traces r [] := by
  have hle := p.freeSpace_le hr
  have hmin : minUsage = payloadOffset + 40 := rfl
  unfold reserve at h
  split_ifs at h
  obtain rfl := Reservation.region.inj h
  refine ⟨hw, ?_, (Nat.mod_eq_of_lt hw).symm, by simp⟩
  dsimp only
  omega

namespace Traces

variable {p q : Pool} {r w : Region} {since since' : List Receipt}

theorem pinned (h : p.Traces r since) (hq : p.Pinned q)
    (hs : since'.map (fun r => (r.handle, r.payload)) = since.map fun r => (r.handle, r.payload)) :
    q.Traces r since' := by
  have hpay : since'.map (·.payload) = since.map (·.payload) := by
    have hsnd := congrArg (List.map Prod.snd) hs
    rwa [List.map_map, List.map_map] at hsnd
  have hfirst : since.head?.map (·.handle) = since'.head?.map (·.handle) := by
    have hfst := congrArg (List.map Prod.fst) hs
    rw [List.map_map, List.map_map] at hfst
    rw [← List.head?_map, ← List.head?_map]
    exact congrArg List.head? hfst.symm
  constructor
  · rw [hq.capacity_eq]
    exact h.offset_lt
  · rw [hq.capacity_eq]
    exact h.room_le
  · rw [hq.writeOffset_eq, hq.capacity_eq, Receipt.stop_congr _ hpay]
    exact h.writeOffset_eq
  · intro u hu
    rw [Option.mem_def.mp hu] at hfirst
    obtain ⟨v, hv, he⟩ := Option.map_eq_some_iff.mp hfirst
    rw [hq.priority_eq, ← h.first_eq v hv]
    exact he.symm

theorem extend (h : p.Traces r since) (bytes : List UInt8) : p.Traces (r.extend bytes) since := by
  refine ⟨h.offset_lt, ?_, h.writeOffset_eq, h.first_eq⟩
  have hroom := h.room_le
  have htake : (bytes.take r.room).length ≤ r.room := List.length_take_le _ _
  simp only [Region.extend]
  omega

theorem committed (h : p.Traces r since) {k : Handle} (hc : p.Committed q w k)
    (hw : payloadOffset + w.written ≤ p.capacity) {u : Receipt} (hu : u.handle = k)
    (hl : u.payload.length = w.written) : q.Traces r (since ++ [u]) := by
  have hcap := hc.capacity_eq
  have hext : extent w.written ≤ p.capacity := extent_le hw p.capacity_mod
  have hoff := hc.offset_eq
  constructor
  · rw [hcap]
    exact h.offset_lt
  · rw [hcap]
    exact h.room_le
  · rw [hc.writeOffset_eq, ← hoff, h.writeOffset_eq, p.nextStart_eq hext, hcap, Receipt.stop_append,
      Receipt.stop_cons, Receipt.stop_nil, Receipt.after, hl]
  · intro v hv
    cases since with
    | nil =>
      obtain rfl : u = v := by simpa using hv
      have hstart : p.writeOffset = r.offset := by
        rw [h.writeOffset_eq, Receipt.stop_nil, Nat.mod_eq_of_lt h.offset_lt]
      rw [hu, hc.handle_eq, ← hoff, hstart, hc.priority_eq]
    | cons a since =>
      rw [hc.priority_eq]
      exact h.first_eq v (by simpa using hv)

/-- The write position is at the region again exactly after whole laps. -/
theorem writeOffset_eq_iff (h : p.Traces r since) :
    p.writeOffset = r.offset ↔ p.capacity ∣ p.distance r.offset since := by
  have hle := Receipt.le_stop p.capacity r.offset since
  have hmod : r.offset % p.capacity = r.offset := Nat.mod_eq_of_lt h.offset_lt
  rw [distance, ← Nat.modEq_iff_dvd' hle, Nat.ModEq, hmod, h.writeOffset_eq, eq_comm]

end Traces

end Pool

structure Ticket where
  reservation : Reservation
  before : ℕ
  deriving DecidableEq

structure Contention where
  pool : Pool
  tickets : List Ticket := []
  receipts : List Receipt := []

/-- Producers name reservations by their place among those in use. -/
inductive Demand where
  | reserve
  | reserveAtLeast (n : ℕ)
  | write (i : ℕ) (bytes : List UInt8)
  | commit (i : ℕ) (header : Header)
  | record (o : Request)

namespace Contention

variable {c c' : Contention}

/-- Give out a reservation. -/
def hand (c : Contention) (reservation : Reservation) : Contention :=
  { c with tickets := c.tickets ++ [⟨reservation, c.receipts.length⟩] }

def step (c : Contention) : Demand → Except Fault Contention
  | .reserve => .ok (c.hand c.pool.reserve)
  | .reserveAtLeast n => do
    match ← c.pool.reserveAtLeast n with
    | some reservation => return c.hand reservation
    | none => return c
  | .write i bytes =>
    match c.tickets[i]? with
    | none => .ok c
    | some t => do
      let (pool, reservation, _) ← c.pool.write t.reservation bytes
      return { c with pool, tickets := c.tickets.set i { t with reservation } }
  | .commit i header =>
    match c.tickets[i]? with
    | none => .ok c
    | some t => do
      let (pool, handle) ← c.pool.commit t.reservation header
      -- Another producer may have written to the same place.
      let bytes := c.pool.content t.reservation
      return ⟨pool, c.tickets.eraseIdx i,
        c.receipts ++ (handle.map (Session.issue · bytes header)).toList⟩
  | .record o => do
    let s ← (Session.mk c.pool none c.receipts).step o
    return { c with pool := s.pool, receipts := s.receipts }

inductive Serves (c : Contention) : Demand → Contention → Prop
  | nothing {d : Demand} : Serves c d c
  | reserve {d : Demand} : Serves c d (c.hand c.pool.reserve)
  | write {i : ℕ} {t : Ticket} {bytes : List UInt8} {q : Pool} {res : Reservation} {fits : Bool}
      (hi : c.tickets[i]? = some t) (hq : c.pool.write t.reservation bytes = .ok (q, res, fits)) :
      Serves c (.write i bytes)
        { c with pool := q, tickets := c.tickets.set i { t with reservation := res } }
  | commit {i : ℕ} {t : Ticket} {header : Header} {q : Pool} {answer : Option Handle}
      (hi : c.tickets[i]? = some t)
      (hq : c.pool.commit t.reservation header = .ok (q, answer)) :
      Serves c (.commit i header) ⟨q, c.tickets.eraseIdx i, c.receipts ++
        (answer.map (Session.issue · (c.pool.content t.reservation) header)).toList⟩
  | record {o : Request} {s : Session}
      (hs : (Session.mk c.pool none c.receipts).step o = .ok s) :
      Serves c (.record o) { c with pool := s.pool, receipts := s.receipts }

theorem serves_of_step {d : Demand} (h : c.step d = .ok c') : c.Serves d c' := by
  cases d with
  | reserve =>
    obtain rfl := Except.ok.inj h
    exact .reserve
  | reserveAtLeast n =>
    obtain ⟨res, hres, h⟩ := bind_eq_ok_iff.mp h
    cases res with
    | none =>
      obtain rfl := Except.ok.inj h
      exact .nothing
    | some res =>
      obtain rfl := Except.ok.inj h
      obtain ⟨-, rfl⟩ := Pool.reserveAtLeast_eq_some_iff.mp hres
      exact .reserve
  | write i bytes =>
    rw [step] at h
    cases hi : c.tickets[i]? with
    | none =>
      rw [hi] at h
      obtain rfl := Except.ok.inj h
      exact .nothing
    | some t =>
      rw [hi] at h
      obtain ⟨⟨q, res, fits⟩, hq, h⟩ := bind_eq_ok_iff.mp h
      obtain rfl := Except.ok.inj h
      exact .write hi hq
  | commit i header =>
    rw [step] at h
    cases hi : c.tickets[i]? with
    | none =>
      rw [hi] at h
      obtain rfl := Except.ok.inj h
      exact .nothing
    | some t =>
      rw [hi] at h
      obtain ⟨⟨q, answer⟩, hq, h⟩ := bind_eq_ok_iff.mp h
      obtain rfl := Except.ok.inj h
      exact .commit hi hq
  | record o =>
    obtain ⟨s, hs, h⟩ := bind_eq_ok_iff.mp h
    obtain rfl := Except.ok.inj h
    exact .record hs

def since (c : Contention) (t : Ticket) : List Receipt :=
  c.receipts.drop t.before

/-- No rule at all. -/
def Anyhow (_ : Contention) (_ : Demand) : Prop :=
  True

def Follows (c : Contention) (t : Ticket) : Prop :=
  t.before ≤ c.receipts.length ∧
    ∀ r, t.reservation = .region r → c.pool.Traces r (c.since t)

/-- The places of the regions are known, whatever else was done. -/
structure Charted (c : Contention) : Prop where
  writeOffset_lt : c.pool.writeOffset < c.pool.capacity
  readOffset_lt : c.pool.readOffset < c.pool.capacity
  follows : ∀ t ∈ c.tickets, c.Follows t

namespace Charted

theorem reserve (h : c.Charted) : (c.hand c.pool.reserve).Charted := by
  refine ⟨h.writeOffset_lt, h.readOffset_lt, fun t ht => ?_⟩
  rcases List.mem_append.mp ht with ht | ht
  · exact h.follows t ht
  · obtain rfl : t = ⟨c.pool.reserve, c.receipts.length⟩ := by simpa using ht
    refine ⟨le_rfl, fun r hr => ?_⟩
    have hnone : (c.hand c.pool.reserve).since ⟨c.pool.reserve, c.receipts.length⟩ = [] :=
      List.drop_length
    rw [hnone]
    exact Pool.traces_reserve h.writeOffset_lt h.readOffset_lt hr

theorem write (h : c.Charted) {i : ℕ} {t : Ticket} (hi : c.tickets[i]? = some t)
    {bytes : List UInt8} {q : Pool} {res : Reservation} {fits : Bool}
    (hq : c.pool.write t.reservation bytes = .ok (q, res, fits)) :
    ({ c with pool := q, tickets := c.tickets.set i { t with reservation := res } } :
      Contention).Charted := by
  obtain ⟨hover, hres⟩ := Pool.overwritten_write hq
  refine ⟨?_, hover.pinned.readOffset_lt h.readOffset_lt, fun u hu => ?_⟩
  · change q.writeOffset < q.capacity
    rw [hover.writeOffset_eq, hover.capacity_eq]
    exact h.writeOffset_lt
  · rcases List.mem_or_eq_of_mem_set hu with hu | rfl
    · obtain ⟨hle, htrace⟩ := h.follows u hu
      exact ⟨hle, fun r hr => (htrace r hr).pinned hover.pinned rfl⟩
    · obtain ⟨hle, htrace⟩ := h.follows t (List.mem_of_getElem? hi)
      refine ⟨hle, fun r' hr' => ?_⟩
      obtain ⟨r, hr, rfl⟩ := hres r' hr'
      exact ((htrace r hr).extend bytes).pinned hover.pinned rfl

theorem commit (h : c.Charted) {i : ℕ} {t : Ticket} (hi : c.tickets[i]? = some t)
    {header : Header} {q : Pool} {answer : Option Handle}
    (hq : c.pool.commit t.reservation header = .ok (q, answer)) :
    (⟨q, c.tickets.eraseIdx i, c.receipts ++ (answer.map
      (Session.issue · (c.pool.content t.reservation) header)).toList⟩ : Contention).Charted := by
  rcases Pool.commit_cases hq with ⟨rfl, rfl⟩ | ⟨w, k, hw, -, rfl, hc⟩
  · refine ⟨h.writeOffset_lt, h.readOffset_lt, fun u hu => ?_⟩
    obtain ⟨hle, htrace⟩ := h.follows u (List.mem_of_mem_eraseIdx hu)
    unfold Follows since
    rw [Option.map_none, Option.toList_none, List.append_nil]
    exact ⟨hle, fun r hr => (htrace r hr).pinned c.pool.pinned_drop rfl⟩
  · have hroom := ((h.follows t (List.mem_of_getElem? hi)).2 w hw).room_le
    refine ⟨hc.writeOffset_lt h.writeOffset_lt (by omega), ?_, fun u hu => ?_⟩
    · change q.readOffset < q.capacity
      rw [hc.readOffset_eq, hc.capacity_eq]
      exact h.readOffset_lt
    · obtain ⟨hle, htrace⟩ := h.follows u (List.mem_of_mem_eraseIdx hu)
      refine ⟨?_, fun r hr => ?_⟩
      · rw [List.length_append]
        omega
      · unfold since
        rw [List.drop_append_of_le_length hle]
        refine (htrace r hr).committed hc (by omega) rfl ?_
        change (c.pool.content t.reservation).length = _
        rw [hw, Pool.content, Pool.length_bytes]

theorem record (h : c.Charted) {o : Request} {s : Session}
    (hs : (Session.mk c.pool none c.receipts).step o = .ok s) :
    ({ c with pool := s.pool, receipts := s.receipts } : Contention).Charted := by
  obtain ⟨hpin, hmap⟩ := Session.step_pinned hs
  have hlen : s.receipts.length = c.receipts.length := by
    simpa using congrArg List.length hmap
  refine ⟨?_, hpin.readOffset_lt h.readOffset_lt, fun t ht => ?_⟩
  · change s.pool.writeOffset < s.pool.capacity
    rw [hpin.writeOffset_eq, hpin.capacity_eq]
    exact h.writeOffset_lt
  · obtain ⟨hle, htrace⟩ := h.follows t ht
    refine ⟨hlen ▸ hle, fun r hr => (htrace r hr).pinned hpin ?_⟩
    unfold since
    rw [List.map_drop, List.map_drop, hmap]

/-- Whatever is asked, the places of the regions stay known. -/
theorem step (h : c.Charted) {d : Demand} (hs : c.step d = .ok c') : c'.Charted := by
  cases serves_of_step hs with
  | nothing => exact h
  | reserve => exact h.reserve
  | write hi hq => exact h.write hi hq
  | commit hi hq => exact h.commit hi hq
  | record ho => exact h.record ho

end Charted

theorem charted_of_run {p : Pool} {arena : Array UInt8} {priority : Priority}
    (hp : Pool.create arena priority = .ok p) (h : Run Anyhow step ⟨p, [], []⟩ c) : c.Charted := by
  refine h.invariant ⟨?_, ?_, by simp⟩ fun u d v hu _ hs => hu.step hs
  all_goals
    unfold Pool.create at hp
    split_ifs at hp
    obtain rfl := Except.ok.inj hp
    exact Pool.capacity_pos _

end Contention

end EtherBuffer
