import EtherBuffer.Proofs.Pool.Cursor
import EtherBuffer.Proofs.Pool.Frame

/-! Room for a frame. The room test tells beforehand whether a frame will be committed. -/
namespace EtherBuffer
open Record

theorem Span.overwrite_append (memory : Array UInt8) (pos : ℕ) (as bs : List UInt8) :
    overwrite memory pos (as ++ bs) = overwrite (overwrite memory pos as) (pos + as.length) bs := by
  induction as generalizing memory pos with
  | nil => rfl
  | cons a as ih =>
    rw [List.cons_append, overwrite, overwrite, ih, List.length_cons, Nat.add_assoc,
      Nat.add_comm 1]

namespace Region

@[simp] theorem extend_nil (r : Region) : r.extend [] = r := by
  simp [extend]

theorem extend_append (r : Region) (as bs : List UInt8) :
    r.extend (as ++ bs) = (r.extend as).extend bs := by
  simp only [extend, List.length_append, List.length_take, Region.mk.injEq, true_and]
  refine ⟨by omega, by omega, ?_⟩
  rw [Bool.or_assoc]
  congr 1
  rw [Bool.eq_iff_iff]
  simp only [Bool.or_eq_true, Bool.not_eq_true', decide_eq_false_iff_not]
  omega

end Region

namespace Pool

variable {p q : Pool} {base : ℕ} {rs : List Receipt}

theorem store_nil {pos : ℕ} (h : pos ≤ p.arena.size) : p.store pos [] = .ok p :=
  if_pos h

theorem store_append {pos : ℕ} {as bs : List UInt8} (h : p.store pos as = .ok q) :
    q.store (pos + as.length) bs = p.store pos (as ++ bs) := by
  unfold store at h
  split_ifs at h
  obtain rfl := Except.ok.inj h
  simp only [store, Span.size_overwrite, List.length_append, Span.overwrite_append, Nat.add_assoc]

theorem storeAround_eq_bind {pos : ℕ} (h : pos ≤ p.capacity) (bs : List UInt8) :
    p.storeAround pos bs = (p.store pos (bs.take (p.capacity - pos)) >>= fun q =>
      q.store 0 (bs.drop (p.capacity - pos))) := by
  unfold storeAround
  rw [require_of_true h]
  rfl

theorem storeAround_nil {pos : ℕ} (h : pos ≤ p.capacity) : p.storeAround pos [] = .ok p := by
  rw [storeAround_eq_bind h, List.take_nil, List.drop_nil,
    store_nil (h.trans p.capacity_le_size), ok_bind, store_nil (Nat.zero_le _)]

theorem storeAround_append {v : ℕ} {as bs : List UInt8} (hn : as.length + bs.length ≤ p.capacity)
    (h : p.storeAround (v % p.capacity) as = .ok q) :
    q.storeAround ((v + as.length) % p.capacity) bs =
      p.storeAround (v % p.capacity) (as ++ bs) := by
  have hv := Nat.mod_lt v p.capacity_pos
  have hwrap := p.wrap_eq (v := v) (d := as.length) (by omega)
  rw [storeAround_eq_bind hv.le] at h
  obtain ⟨u, hu, hq⟩ := bind_eq_ok_iff.mp h
  have hc : q.capacity = p.capacity :=
    (overwritten_store hq).capacity_eq.trans (overwritten_store hu).capacity_eq
  rw [storeAround_eq_bind (p := p) hv.le, storeAround_eq_bind (by
    rw [hc]
    exact (Nat.mod_lt _ p.capacity_pos).le), hc, ← hwrap]
  unfold wrap
  generalize v % p.capacity = o at *
  generalize p.capacity = cap at *
  by_cases hlt : as.length < cap - o
  · -- The first bytes end in front of the border, and the others go on there.
    have hend : cap - (o + as.length) = cap - o - as.length := by omega
    rw [List.take_of_length_le hlt.le] at hu
    rw [List.drop_eq_nil_of_le hlt.le, store_nil (Nat.zero_le _)] at hq
    obtain rfl := Except.ok.inj hq
    rw [if_neg (by omega), hend, store_append hu, List.take_append, List.drop_append,
      List.take_of_length_le hlt.le, List.drop_eq_nil_of_le hlt.le, List.nil_append]
  · -- They reach the border, and the others are stored behind what went around it.
    have hdrop : (as.drop (cap - o)).length = o + as.length - cap := by
      rw [List.length_drop]
      omega
    have htake : (as ++ bs).take (cap - o) = as.take (cap - o) :=
      List.take_append_of_le_length (by omega)
    have hrest : (as ++ bs).drop (cap - o) = as.drop (cap - o) ++ bs :=
      List.drop_append_of_le_length (by omega)
    have hon : q.store (0 + (as.drop (cap - o)).length) bs = u.store 0 (as.drop (cap - o) ++ bs) :=
      store_append hq
    rw [Nat.zero_add, hdrop] at hon
    rw [if_pos (by omega), List.take_of_length_le (by omega), List.drop_eq_nil_of_le (by omega),
      htake, hrest, hu, ok_bind, hon]
    cases hr : u.store 0 (as.drop (cap - o) ++ bs) with
    | error e => rfl
    | ok r => exact store_nil (Nat.zero_le _)

theorem write_region (p : Pool) (r : Region) (bytes : List UInt8) :
    p.write (.region r) bytes =
      (p.storeAround (p.wrap (r.offset + payloadOffset + r.written)) (bytes.take r.room) >>= fun q =>
        .ok (q, .region (r.extend bytes), decide (bytes.length ≤ r.room))) :=
  rfl

namespace Holds

variable {r : Region} {bs : List UInt8}

theorem position_of_drafted (h : p.Holds base rs)
    (hd : p.Drafted (Receipt.stop p.capacity base rs) (base + p.capacity) r bs) :
    p.wrap (r.offset + payloadOffset + r.written) =
      (Receipt.stop p.capacity base rs + (payloadOffset + r.written)) % p.capacity := by
  have hroom := hd.room_le
  have hle := Receipt.le_stop p.capacity base rs
  rw [hd.offset_eq, h.writeOffset_eq, Nat.add_assoc]
  exact p.wrap_eq (by omega)

theorem write_append (h : p.Holds base rs)
    (hd : p.Drafted (Receipt.stop p.capacity base rs) (base + p.capacity) r bs) {u : Pool}
    (as cs : List UInt8) {fits fits' : Bool}
    (hq : p.write (.region r) as = .ok (q, .region (r.extend as), fits))
    (hu : q.write (.region (r.extend as)) cs = .ok (u, .region (r.extend (as ++ cs)), fits')) :
    p.write (.region r) (as ++ cs) = .ok (u, .region (r.extend (as ++ cs)),
      decide ((as ++ cs).length ≤ r.room)) := by
  obtain ⟨q', hq', hholds, hst, hdraft⟩ := h.write_spec hd as
  obtain ⟨rfl, -⟩ := Prod.mk.inj (Except.ok.inj (hq.symm.trans hq'))
  have hroom := hd.room_le
  have hle := Receipt.le_stop p.capacity base rs
  have hc := hst.capacity_eq
  have hpos := h.position_of_drafted hd
  have hpos' := hholds.position_of_drafted (r := r.extend as) (by rw [hc]; exact hdraft)
  rw [write_region, hpos] at hq ⊢
  rw [write_region, hpos', hc] at hu
  generalize Receipt.stop p.capacity base rs = v at *
  obtain ⟨q', hstore, hq⟩ := bind_eq_ok_iff.mp hq
  obtain ⟨rfl, -⟩ := Prod.mk.inj (Except.ok.inj hq)
  obtain ⟨u', hstore', hu⟩ := bind_eq_ok_iff.mp hu
  obtain ⟨rfl, -⟩ := Prod.mk.inj (Except.ok.inj hu)
  have htake : (as ++ cs).take r.room = as.take r.room ++ cs.take (r.extend as).room := by
    have hroom' : (r.extend as).room = r.room - as.length := by
      simp only [Region.extend, List.length_take]
      omega
    rw [List.take_append, hroom']
  have hplace : v + (payloadOffset + r.written) + (as.take r.room).length =
      v + (payloadOffset + (r.extend as).written) := by
    simp only [Region.extend]
    omega
  have hfit : (as.take r.room).length + (cs.take (r.extend as).room).length ≤ p.capacity := by
    rw [← List.length_append, ← htake, List.length_take]
    omega
  rw [htake, ← storeAround_append hfit hstore, hplace, hstore']
  rfl

theorem writeAll_eq (h : p.Holds base rs)
    (hd : p.Drafted (Receipt.stop p.capacity base rs) (base + p.capacity) r bs)
    (pieces : List (List UInt8)) :
    ∃ q fits, p.write (.region r) pieces.flatten = .ok (q, .region (r.extend pieces.flatten), fits) ∧
      p.writeAll (.region r) pieces = .ok (q, .region (r.extend pieces.flatten)) := by
  induction pieces generalizing p r bs with
  | nil =>
    have hle : (Receipt.stop p.capacity base rs + (payloadOffset + r.written)) % p.capacity ≤
        p.capacity := (Nat.mod_lt _ p.capacity_pos).le
    refine ⟨p, true, ?_, by rw [List.flatten_nil, Region.extend_nil, writeAll]⟩
    rw [List.flatten_nil, Region.extend_nil, write_region, h.position_of_drafted hd, List.take_nil,
      storeAround_nil hle, ok_bind, Region.extend_nil]
    rfl
  | cons piece pieces ih =>
    obtain ⟨q, hq, hholds, hst, hdraft⟩ := h.write_spec hd piece
    rw [← hst.capacity_eq] at hdraft
    obtain ⟨u, fits, hu, hall⟩ := ih hholds hdraft
    rw [← Region.extend_append] at hu hall
    refine ⟨u, _, h.write_append hd piece pieces.flatten hq hu, ?_⟩
    rw [writeAll, hq, ok_bind]
    exact hall

end Holds

theorem writeAll_sink (p : Pool) (n : ℕ) (pieces : List (List UInt8)) :
    ∃ m, p.writeAll (.sink n) pieces = .ok (p, .sink m) := by
  induction pieces generalizing n with
  | nil => exact ⟨n, rfl⟩
  | cons piece pieces ih => exact ih _

theorem put_singleton (p : Pool) (bytes : List UInt8) (header : Header) :
    p.put [bytes] header = (p.write p.reserve bytes >>= fun (q, res, _) => q.commit res header) := by
  unfold put
  simp only [writeAll]
  cases p.write p.reserve bytes <;> rfl

/-- A frame may be cut into pieces in any way. -/
theorem Holds.put_flatten (h : p.Holds base rs) (pieces : List (List UInt8)) (header : Header) :
    p.put [pieces.flatten] header = p.put pieces header := by
  unfold put
  rcases h.reserve_spec with ⟨-, hsink⟩ | ⟨r, hregion, hd⟩
  · obtain ⟨m, hm⟩ := p.writeAll_sink 0 pieces
    obtain ⟨m', hm'⟩ := p.writeAll_sink 0 [pieces.flatten]
    rw [hsink, hm, hm']
    rfl
  · obtain ⟨q, fits, hq, hall⟩ := h.writeAll_eq hd pieces
    rw [hregion, hall, writeAll, hq]
    rfl

theorem Holds.put_congr (h : p.Holds base rs) {pieces pieces' : List (List UInt8)}
    (hpieces : pieces'.flatten = pieces.flatten) (header : Header) :
    p.put pieces' header = p.put pieces header := by
  rw [← h.put_flatten pieces', hpieces, h.put_flatten]

theorem Holds.freeSpace_le (h : p.Holds base rs) : p.freeSpace ≤ p.capacity := by
  have hspace := h.freeSpace_eq
  have hstop := Receipt.le_stop p.capacity base rs
  omega

/-- No room is found for a size that no machine word can hold. -/
theorem Holds.canHold_iff (h : p.Holds base rs) (n : ℕ) :
    p.canHold n = .ok true ↔ max minUsage (extent n) ≤ p.freeSpace := by
  by_cases hlt : payloadOffset + n + 3 < sizeLimit
  · rw [p.canHold_eq hlt, Except.ok.injEq, decide_eq_true_eq]
  · have hle := h.freeSpace_le
    have hsize := p.capacity_le_size
    have hsmall := h.small
    have hpay := le_extent n
    have hlimit : sizeLimit = 2 ^ 64 := rfl
    rw [p.canHold_oversized (Nat.le_of_not_lt hlt)]
    constructor
    · intro hnot
      cases hnot
    · intro hroom
      omega

theorem Holds.room_iff (h : p.Holds base rs) (n : ℕ) :
    max minUsage (extent n) ≤ p.freeSpace ↔
      minUsage ≤ p.freeSpace ∧ n ≤ p.freeSpace - payloadOffset := by
  have hspace := h.freeSpace_eq
  have hroom := h.room
  have hmod : p.freeSpace % 4 = 0 := by omega
  have hpay := le_extent n
  have hs : payloadOffset = 44 ∧ minUsage = 84 := ⟨rfl, rfl⟩
  rw [max_le_iff]
  apply and_congr_right
  intro hmin
  constructor
  · intro hext
    omega
  · intro hfits
    exact extent_le (by omega) hmod

/-- A region is reserved in the whole free space, and overflows with what is longer. -/
theorem Holds.reserve_region (h : p.Holds base rs) (hmin : minUsage ≤ p.freeSpace) :
    ∃ r, p.reserve = .region r ∧
      (∀ bytes, (r.extend bytes).overflowed =
        decide (p.freeSpace - payloadOffset < bytes.length)) ∧
      p.Drafted (Receipt.stop p.capacity base rs) (base + p.capacity) r [] := by
  have hreserve : p.reserve = .region ⟨p.writeOffset, 0, p.freeSpace - payloadOffset, false⟩ :=
    if_neg (Nat.not_lt.mpr hmin)
  rcases h.reserve_spec with ⟨hlt, -⟩ | ⟨r, hr, hdraft⟩
  · omega
  · obtain rfl := Reservation.region.inj (hreserve.symm.trans hr)
    refine ⟨_, hreserve, fun bytes => ?_, hdraft⟩
    rw [Bool.eq_iff_iff]
    simp [Region.extend]

theorem exists_reserveAtLeast_iff {n : ℕ} :
    (∃ res, p.reserveAtLeast n = .ok (some res)) ↔ p.canHold n = .ok true := by
  constructor
  · rintro ⟨res, hres⟩
    exact (reserveAtLeast_eq_some_iff.mp hres).1
  · intro hn
    exact ⟨_, reserveAtLeast_eq_some_iff.mpr ⟨hn, rfl⟩⟩

theorem Holds.le_capacity (h : p.Holds base rs) {n : ℕ} {res : Reservation}
    (hres : p.reserveAtLeast n = .ok (some res)) : n ≤ res.capacity := by
  obtain ⟨hn, rfl⟩ := reserveAtLeast_eq_some_iff.mp hres
  obtain ⟨hmin, hfits⟩ := (h.room_iff n).mp ((h.canHold_iff n).mp hn)
  rw [reserve, if_neg (Nat.not_lt.mpr hmin), Reservation.capacity, Nat.zero_add]
  exact hfits

/-- The handles that a cursor meets in at most `n` steps. -/
def meet (p : Pool) : ℕ → Cursor → Except Fault (List Handle)
  | 0, _ => .ok []
  | n + 1, c =>
    match p.atCursor c with
    | none => .ok []
    | some h => do return h :: (← p.meet n (← p.advance c))

structure Shows (p : Pool) (r : Receipt) : Prop where
  state : p.stateAt r.handle.position = .ok .live
  header : p.header r.handle = .ok r.header
  payload : ∀ first n, min (first + n) r.header.length.toNat ≤ r.payload.length →
    p.readPayload r.handle first n =
      .ok ((r.payload.drop first).take (min n (r.header.length.toNat - first)))

theorem Shows.readPayload_eq {r : Receipt} (h : p.Shows r)
    (hl : r.header.length.toNat = r.payload.length) (first n : ℕ) :
    p.readPayload r.handle first n = .ok ((r.payload.drop first).take n) := by
  have hrest : r.header.length.toNat - first = (r.payload.drop first).length := by
    rw [hl, List.length_drop]
  rw [h.payload first n (by omega), hrest, ← List.take_take, List.take_length]

end Pool

namespace Session

variable {s : Session} {base : ℕ} {gone held : List Receipt}

theorem Sound.shows (h : s.Sound base gone held) {i : ℕ} {r : Receipt}
    (hi : s.receipts[i]? = some r) (hr : r.releases = 0) : s.pool.Shows r where
  state := h.stateAt_eq hi hr
  header := h.header_eq hi hr
  payload first n hin := by
    obtain ⟨as, bs, hheld, -⟩ := h.split hi (by simp [Receipt.isReleased, hr])
    have hh := h.holds
    rw [hheld] at hh
    exact hh.readPayload_within hin

theorem Sound.setAside (h : s.Sound base gone held) :
    Sound { s with draft := none } base gone held where
  receipts_eq := h.receipts_eq
  holds := h.holds
  gone_released := h.gone_released
  releases_le := h.releases_le
  oldest_live := h.oldest_live
  committed_eq := h.committed_eq
  drafted := by simp

/-- A frame for which there is room is committed. -/
theorem Sound.put_fitting (h : s.Sound base gone held) {pieces : List (List UInt8)}
    (hn : s.pool.canHold pieces.flatten.length = .ok true) (header : Header) :
    ∃ q held', s.pool.put pieces header = .ok (q, some (.at s.pool.priority s.pool.writeOffset)) ∧
      q.priority = s.pool.priority ∧ q.dropped = s.pool.dropped ∧
      Sound ⟨q, none, s.receipts ++
        [issue (.at s.pool.priority s.pool.writeOffset) pieces.flatten header]⟩ base gone held' := by
  have hroom := (h.holds.canHold_iff _).mp hn
  obtain ⟨hmin, hfits⟩ := (h.holds.room_iff _).mp hroom
  obtain ⟨r, hreserve, hspace, hdraft⟩ := h.holds.reserve_region hmin
  obtain ⟨q, hwrite, -⟩ := h.holds.write_spec hdraft pieces.flatten
  have hover := hspace pieces.flatten
  rw [decide_eq_false (Nat.not_lt.mpr hfits)] at hover
  obtain ⟨u, res, fits, hu, hst, hwritten⟩ := h.reserve.write rfl pieces.flatten
  rw [hreserve, hwrite] at hu
  obtain ⟨rfl, hres⟩ := Prod.mk.inj (Except.ok.inj hu)
  obtain ⟨rfl, -⟩ := Prod.mk.inj hres
  -- The region did not overflow, so that its record is linked and nothing is counted as lost.
  obtain ⟨q', hpublish, -, -, -, -, hdropped⟩ :=
    hwritten.holds.publish_spec (hwritten.drafted _ _ rfl) hover header
  obtain ⟨u', handle, hu', hprio, -, held', hsound⟩ := hwritten.commit rfl header
  have hcommit : q.commit (.region (r.extend pieces.flatten)) header =
      .ok (q', some (.at q.priority q.writeOffset)) := by
    simp only [Pool.commit, hover, hpublish]
    rfl
  obtain ⟨rfl, rfl⟩ := Prod.mk.inj (Except.ok.inj (hu'.symm.trans hcommit))
  rw [hst.priority_eq, hst.writeOffset_eq] at hu' hsound
  refine ⟨_, held', ?_, hprio.trans hst.priority_eq, hdropped.trans hst.dropped_eq, hsound⟩
  rw [← h.holds.put_flatten, Pool.put, hreserve, Pool.writeAll, hwrite]
  exact hu'

/-- A frame for which there is no room is lost. -/
theorem Sound.put_lost (h : s.Sound base gone held) {pieces : List (List UInt8)}
    (hn : s.pool.canHold pieces.flatten.length ≠ .ok true) (header : Header) :
    ∃ q, s.pool.put pieces header = .ok (q.drop, none) ∧
      s.pool.Steady q base (Receipt.stop s.pool.capacity base held) ∧
      Sound ⟨q, none, s.receipts⟩ base gone held := by
  rw [Ne, h.holds.canHold_iff, h.holds.room_iff, not_and, Nat.not_le] at hn
  by_cases hmin : minUsage ≤ s.pool.freeSpace
  · obtain ⟨r, hreserve, hspace, hdraft⟩ := h.holds.reserve_region hmin
    obtain ⟨q, hwrite, -⟩ := h.holds.write_spec hdraft pieces.flatten
    obtain ⟨u, res, fits, hu, hst, hsound⟩ := h.reserve.write rfl pieces.flatten
    rw [hreserve, hwrite] at hu
    obtain ⟨rfl, -⟩ := Prod.mk.inj (Except.ok.inj hu)
    have hover := hspace pieces.flatten
    rw [decide_eq_true (hn hmin)] at hover
    have hcommit : q.commit (.region (r.extend pieces.flatten)) header = .ok (q.drop, none) :=
      if_pos hover
    refine ⟨q, ?_, hst, hsound.setAside⟩
    rw [← h.holds.put_flatten, Pool.put, hreserve, Pool.writeAll, hwrite]
    exact hcommit
  · have hsink : s.pool.reserve = .sink 0 := if_pos (Nat.not_le.mp hmin)
    obtain ⟨m, hm⟩ := s.pool.writeAll_sink 0 pieces
    refine ⟨s.pool, ?_, .refl _ _ _, h.setAside⟩
    rw [Pool.put, hsink, hm]
    rfl

theorem Rests.meet_eq {c : Cursor} {k : ℕ} (h : s.Rests c k) (n : ℕ) :
    s.pool.meet n c = .ok (((s.receipts.drop k).take n).map (·.handle)) := by
  induction n generalizing c k with
  | zero => rfl
  | succ n ih =>
    rw [Pool.meet, h.atCursor_eq]
    rcases h.le_length.lt_or_eq with hlt | rfl
    · have hget := List.getElem?_eq_getElem hlt
      obtain ⟨c', hc', hrests⟩ := h.advance hget
      rw [hget, List.drop_eq_getElem_cons hlt, List.take_succ_cons, List.map_cons]
      change (s.pool.advance c >>= fun c => s.pool.meet n c >>= fun hs => .ok (_ :: hs)) = _
      rw [hc', ok_bind, ih hrests, ok_bind]
    · rw [List.getElem?_eq_none le_rfl, List.drop_length]
      rfl

/-- The pool shows the records of the session as before. -/
structure AfterLoss (s : Session) (q : Pool) : Prop where
  capacity_eq : q.capacity = s.pool.capacity
  priority_eq : q.priority = s.pool.priority
  writeOffset_eq : q.writeOffset = s.pool.writeOffset
  readOffset_eq : q.readOffset = s.pool.readOffset
  live_eq : q.live = s.pool.live
  freeSpace_eq : q.freeSpace = s.pool.freeSpace
  committed_eq : q.committed = s.pool.committed
  dropped_eq : q.dropped = s.pool.dropped + 1
  atCursor_eq : ∀ c, q.atCursor c = s.pool.atCursor c
  pending_eq : ∀ c, q.pending c = s.pool.pending c
  advance_eq : ∀ c, c.passed = s.pool.committed ∨ c.offset ∈ s.ring.map (·.handle.position) →
    q.advance c = s.pool.advance c
  meet_eq : ∀ c k, s.Rests c k → ∀ n, q.meet n c = s.pool.meet n c
  stateAt_eq : ∀ r ∈ s.ring, q.stateAt r.handle.position = s.pool.stateAt r.handle.position
  shows : ∀ r ∈ s.receipts, r.releases = 0 → s.pool.Shows r ∧ q.Shows r

theorem Sound.afterLoss (h : s.Sound base gone held) {q : Pool}
    (hst : s.pool.Steady q base (Receipt.stop s.pool.capacity base held))
    (hq : Sound ⟨q, none, s.receipts⟩ base gone held) : s.AfterLoss q.drop := by
  -- Both pools hold the records of the same receipts, which tell what is read of them.
  have hlost := hq.lose
  have hc := hst.capacity_eq
  have hread : q.readOffset = s.pool.readOffset := by
    rw [h.holds.readOffset_eq, ← hc]
    exact hq.holds.readOffset_eq
  have hlive : q.live = s.pool.live := hq.holds.live_eq.trans h.holds.live_eq.symm
  have hrecord {r : Receipt} (hr : r ∈ s.ring) :
      q.drop.linkAt r.handle.position = s.pool.linkAt r.handle.position ∧
        q.drop.stateAt r.handle.position = s.pool.stateAt r.handle.position := by
    rw [h.ring_eq] at hr
    obtain ⟨as, bs, rfl⟩ := List.mem_iff_append.mp hr
    constructor
    · rw [h.holds.linkAt_handle, ← hc]
      exact hlost.holds.linkAt_handle
    · rw [h.holds.stateAt_handle]
      exact hlost.holds.stateAt_handle
  constructor
  · exact hc
  · exact hst.priority_eq
  · exact hst.writeOffset_eq
  · exact hread
  · exact hlive
  · change q.freeSpace = _
    simp only [Pool.freeSpace, hlive, hc, hread, hst.writeOffset_eq]
  · exact hst.committed_eq
  · change q.dropped + 1 = _
    rw [hst.dropped_eq]
  · intro c
    simp only [Pool.atCursor, Pool.drop, hst.committed_eq, hst.priority_eq]
  · intro c
    simp only [Pool.pending, Pool.drop, hst.committed_eq]
  · intro c hat
    have hcount : q.drop.committed = s.pool.committed := hst.committed_eq
    unfold Pool.advance
    rw [hcount]
    split_ifs with hend
    · rfl
    · obtain ⟨r, hr, hpos⟩ := List.mem_map.mp (hat.resolve_left hend)
      rw [← hpos, (hrecord hr).1]
  · intro c k hk n
    have hk' : Rests ⟨q.drop, none, s.receipts⟩ c k := by
      constructor
      · exact ⟨base, gone, held, hlost⟩
      · exact hk.le_length
      · change _ ≤ k + q.live
        rw [hlive]
        exact hk.in_ring
      · exact hk.passed_eq
      · rw [hk.offset_eq, place, place]
        change _ = Option.getD _ q.writeOffset
        rw [hst.writeOffset_eq]
    exact (hk'.meet_eq n).trans (hk.meet_eq n).symm
  · intro r hr
    exact (hrecord hr).2
  · intro r hr hz
    obtain ⟨i, hi⟩ := List.getElem?_of_mem hr
    exact ⟨h.shows hi hz, hlost.shows hi hz⟩

/-- The pool has one record more than in the session, and all others as before. -/
structure Joined (s : Session) (q : Pool) (r : Receipt) : Prop where
  live_eq : q.live = s.pool.live + 1
  committed_eq : q.committed = s.pool.committed + 1
  dropped_eq : q.dropped = s.pool.dropped
  shows_new : q.Shows r
  shows : ∀ t ∈ s.receipts, t.releases = 0 → t.handle ≠ r.handle ∧ s.pool.Shows t ∧ q.Shows t

theorem Sound.joined (h : s.Sound base gone held) {q : Pool} {r : Receipt} {held' : List Receipt}
    (hdropped : q.dropped = s.pool.dropped)
    (hq : Sound ⟨q, none, s.receipts ++ [r]⟩ base gone held') (hr : r.releases = 0) :
    s.Joined q r := by
  have hnew : (s.receipts ++ [r])[s.receipts.length]? = some r := by simp
  constructor
  · have hlen := congrArg List.length hq.receipts_eq
    have hlive : q.live = held'.length := hq.holds.live_eq
    rw [h.receipts_eq] at hlen
    simp only [List.length_append, List.length_singleton] at hlen
    rw [h.holds.live_eq, hlive]
    omega
  · have hcount : q.committed = .ofNat (s.receipts ++ [r]).length := hq.committed_eq
    rw [hcount, h.committed_eq, List.length_append, List.length_singleton, UInt32.ofNat_add]
    rfl
  · exact hdropped
  · exact hq.shows hnew hr
  · intro t ht hz
    obtain ⟨i, hi⟩ := List.getElem?_of_mem ht
    have hlt : i < s.receipts.length := (List.getElem?_eq_some_iff.mp hi).1
    have hi' : (s.receipts ++ [r])[i]? = some t := by rw [List.getElem?_append_left hlt, hi]
    exact ⟨(hq.handle_ne hi' hz hlt hnew).symm, h.shows hi hz, hq.shows hi' hz⟩

/-- A frame is committed if and only if the room test says so beforehand, and one that is lost leaves no
trace but a count. -/
theorem reached_puts_exactly (arena : Array UInt8) (priority : Priority) (p : Pool)
    (hp : Pool.create arena priority = .ok p) (hmax : arena.size < 2 ^ 32)
    (hs : Reached Allows ⟨p, none, []⟩ s) (pieces : List (List UInt8)) (header : Header) :
    let n := pieces.flatten.length
    ∃ q answer, s.pool.put pieces header = .ok (q, answer) ∧
      (answer.isSome = true ↔ s.pool.canHold n = .ok true) ∧
      (answer.isSome = true ↔ ∃ res, s.pool.reserveAtLeast n = .ok (some res)) ∧
      (∀ res, s.pool.reserveAtLeast n = .ok (some res) → n ≤ res.capacity) ∧
      (∀ pieces', pieces'.flatten = pieces.flatten → s.pool.put pieces' header = .ok (q, answer)) ∧
      (∀ h ∈ answer, h = .at s.pool.priority s.pool.writeOffset ∧
        s.Joined q (issue h pieces.flatten header)) ∧
      (answer = none → s.AfterLoss q) := by
  obtain ⟨base, gone, held, h⟩ : s.Kept :=
    hs.kept (fun _ _ h => h) ⟨_, _, _, Sound.create hp hmax⟩
  intro n
  by_cases hn : s.pool.canHold n = .ok true
  · obtain ⟨q, held', hput, -, hdropped, hq⟩ := h.put_fitting hn header
    refine ⟨q, _, hput, ?_, ?_, fun _ => h.holds.le_capacity, ?_, ?_, ?_⟩
    · exact iff_of_true rfl hn
    · rw [Pool.exists_reserveAtLeast_iff]
      exact iff_of_true rfl hn
    · intro pieces' hpieces
      rw [h.holds.put_congr hpieces, hput]
    · intro a ha
      obtain rfl := Option.mem_some_iff.mp ha
      exact ⟨rfl, h.joined hdropped hq rfl⟩
    · intro hnone
      cases hnone
  · obtain ⟨q, hput, hst, hq⟩ := h.put_lost hn header
    refine ⟨q.drop, _, hput, ?_, ?_, fun _ => h.holds.le_capacity, ?_, ?_, ?_⟩
    · exact iff_of_false Bool.false_ne_true hn
    · rw [Pool.exists_reserveAtLeast_iff]
      exact iff_of_false Bool.false_ne_true hn
    · intro pieces' hpieces
      rw [h.holds.put_congr hpieces, hput]
    · intro a ha
      cases ha
    · intro hlost
      exact h.afterLoss hst hq

/-- A frame that fills the free space to the last byte is committed, and with one more byte it is lost.
-/
theorem reached_puts_exactly_filling :
    ∃ p s q q', Pool.create (Array.replicate 256 0) .low = .ok p ∧
      Reached Allows ⟨p, none, []⟩ s ∧ s.receipts.map (·.releases) = [1, 0] ∧
      s.pool.put [.replicate 60 1, [], .replicate 40 2] {} = .ok (q, some ⟨.low, 0⟩) ∧
      s.pool.put [.replicate 60 1, .replicate 41 2] {} = .ok (q', none) ∧ s.AfterLoss q' := by
  have hroom : minUsage ≤ wholeWords (Array.replicate 256 (0 : UInt8)).size := by decide +kernel
  obtain ⟨p, hp⟩ : ∃ p, Pool.create (Array.replicate 256 0) .low = .ok p := ⟨_, dif_pos hroom⟩
  let requests : List Request := [.reserve, .write (.replicate 100 5), .commit {}, .reserve,
    .commit {}, .free 0]
  have hserve : ((Pool.create (Array.replicate 256 0) .low).toOption.bind fun p =>
      ((Session.mk p none []).serve Allows requests).map fun s =>
        (s.pool.priority, s.pool.writeOffset, (s.pool.canHold 100).toOption,
          (s.pool.canHold 101).toOption, s.receipts.map (·.releases))) =
      some (.low, 0, some true, some false, [1, 0]) := by
    decide +kernel
  rw [hp] at hserve
  obtain ⟨s, hs, he⟩ := Option.map_eq_some_iff.mp hserve
  simp only [Prod.mk.injEq, toOption_eq_some_iff] at he
  obtain ⟨hprio, hwrite, hfits, hover, hrel⟩ := he
  have hreach := reached_of_serve hs
  have hmax : (Array.replicate 256 (0 : UInt8)).size < 2 ^ 32 := by decide +kernel
  obtain ⟨q, answer, hput, hiff, -, -, -, hsome, -⟩ := reached_puts_exactly _ .low p hp hmax hreach
    [.replicate 60 1, [], .replicate 40 2] {}
  obtain ⟨q', answer', hput', hiff', -, -, -, -, hloss⟩ := reached_puts_exactly _ .low p hp hmax
    hreach [.replicate 60 1, .replicate 41 2] {}
  obtain ⟨a, rfl⟩ := Option.isSome_iff_exists.mp (hiff.mpr hfits)
  obtain ⟨rfl, -⟩ := hsome a rfl
  have hnone : answer' = none := by
    rw [← Option.not_isSome_iff_eq_none, hiff']
    change s.pool.canHold 101 ≠ .ok true
    rw [hover]
    intro h
    cases h
  subst hnone
  rw [hprio, hwrite] at hput
  exact ⟨p, s, q, q', hp, hreach, hrel, hput, hput', hloss rfl⟩

end Session

end EtherBuffer
