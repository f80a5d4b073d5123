import EtherBuffer.Proofs.Pool.Contention
import EtherBuffer.Proofs.Pool.Layout

/-! Commits of regions at whose place a record may have been made since. -/
namespace EtherBuffer
open Record

namespace Pool

/-- A region lies at the write position, in the free space. -/
def Fits (p : Pool) (res : Reservation) : Prop :=
  ∀ r, res = .region r →
    r.offset = p.writeOffset ∧ payloadOffset + r.written + r.room ≤ p.freeSpace

theorem fits_reserve (p : Pool) : p.Fits p.reserve := by
  intro r hr
  have hmin : minUsage = payloadOffset + 40 := rfl
  unfold reserve at hr
  split_ifs at hr
  obtain rfl := Reservation.region.inj hr
  refine ⟨rfl, ?_⟩
  dsimp only
  omega

theorem Fits.overwritten {p q : Pool} {res : Reservation} (h : p.Fits res) (hq : p.Overwritten q) :
    q.Fits res := by
  intro r hr
  rw [hq.writeOffset_eq, hq.freeSpace_eq]
  exact h r hr

theorem bytes_of_mod_eq {p : Pool} {v w : ℕ} (h : v % p.capacity = w % p.capacity) (n : ℕ) :
    p.bytes v n = p.bytes w n := by
  refine List.map_congr_left fun k _ => ?_
  rw [byte, byte, ← Nat.mod_add_mod, h, Nat.mod_add_mod]

end Pool

namespace Session

variable {s : Session} {p : Pool} {receipts : List Receipt} {res : Reservation}

theorem Kept.idle (h : s.Kept) : (Session.mk s.pool none s.receipts).Kept := by
  obtain ⟨base, gone, held, h⟩ := h
  exact ⟨base, gone, held, h.receipts_eq, h.holds, h.gone_released, h.releases_le, h.oldest_live,
    h.committed_eq, by simp⟩

theorem Kept.takeUp (h : (Session.mk p none receipts).Kept) (hf : p.Fits res) :
    (Session.mk p (some ⟨res, p.content res⟩) receipts).Kept := by
  obtain ⟨base, gone, held, h⟩ := h
  refine ⟨base, gone, held, h.receipts_eq, h.holds, h.gone_released, h.releases_le, h.oldest_live,
    h.committed_eq, fun r bytes hd => ?_⟩
  obtain ⟨rfl, rfl⟩ := Draft.mk.inj (Option.some.inj hd)
  obtain ⟨hoff, hroom⟩ := hf r rfl
  have hfree := h.holds.freeSpace_eq
  have hwrite := h.holds.writeOffset_eq
  refine ⟨hoff, ?_, fun _ => Pool.bytes_of_mod_eq ?_ _⟩
  · dsimp only at hfree ⊢
    omega
  · dsimp only at hwrite ⊢
    rw [hoff, hwrite, Nat.mod_add_mod]

theorem Kept.fits {bytes : List UInt8} (h : (Session.mk p (some ⟨res, bytes⟩) receipts).Kept) :
    p.Fits res := by
  obtain ⟨base, gone, held, h⟩ := h
  rintro r rfl
  have hd := h.drafted r bytes rfl
  have hroom := hd.room_le
  have hfree := h.holds.freeSpace_eq
  refine ⟨hd.offset_eq, ?_⟩
  dsimp only at hroom hfree
  omega

theorem Kept.drop (h : (Session.mk p none receipts).Kept) :
    (Session.mk p.drop none receipts).Kept := by
  have hsink : p.Fits (.sink 0) := fun r hr => Reservation.noConfusion hr
  obtain ⟨base, gone, held, h⟩ := h.takeUp hsink
  obtain ⟨q, handle, hq, -, -, held', h'⟩ := h.commit rfl {}
  obtain ⟨rfl, rfl⟩ := Prod.mk.inj (Except.ok.inj hq)
  rw [Option.map_none, Option.toList_none, List.append_nil] at h'
  exact ⟨base, gone, held', h'⟩

theorem allows_draft {o : Request} (d : Draft) (ho : (Session.mk p none receipts).Allows o) :
    (Session.mk p (some d) receipts).Allows o := by
  cases o with
  | write bytes | commit header => rfl
  | _ => exact ho

end Session

namespace Pool.Holds

variable {p : Pool} {base : ℕ} {rs : List Receipt}

theorem publish_at (h : p.Holds base rs) {r : Region} (hr : p.writeOffset = r.offset)
    (header : Header) : ∃ q, p.publish r header = .ok (q, .at p.priority r.offset) := by
  have hstart := h.stop_start.1
  have hwrite := h.writeOffset_eq
  have hs : payloadOffset = 44 ∧ minUsage = 84 := ⟨rfl, rfl⟩
  generalize Receipt.stop p.capacity base rs = v at *
  obtain ⟨q₁, q₂, q₃, e₁, e₂, e₃, -⟩ := fill_spec (p := p) (v := v) (by omega)
    { header with length := .ofNat r.written, stage := .empty }
    (p.nextStart (r.offset + extent r.written))
  rw [← hwrite, hr] at e₁ e₂ e₃
  unfold publish
  rw [require_of_true hr.symm, ok_bind, e₁, ok_bind, e₂, ok_bind, e₃]
  exact ⟨_, rfl⟩

/-- A stretch from the write position on meets a record in use exactly when it is longer than the free
space. -/
theorem meets_iff (h : p.Holds base rs) (hfirst : ∀ t ∈ rs.head?, t.isReleased = false) {n : ℕ}
    (hn : n ≤ p.capacity) :
    (∃ u ∈ rs, u.isReleased = false ∧
      ∃ i, p.Covers u.handle.position u.size i ∧ p.Covers p.writeOffset n i) ↔ p.freeSpace < n := by
  have hfree := h.freeSpace_eq
  constructor
  · rintro ⟨u, hu, -, i, hi, k, hk, he⟩
    by_contra hle
    exact h.not_covers_free hu i hi ⟨k, by omega, he⟩
  · intro hlt
    cases rs with
    | nil =>
      rw [Receipt.stop_nil] at hfree
      omega
    | cons r rs =>
      have h₀ : p.Holds base ([] ++ r :: rs) := h
      have hpos := h₀.position_eq
      have hsize : payloadOffset + r.payload.length ≤ r.size := le_extent _
      have h44 : payloadOffset = 44 := rfl
      rw [Receipt.stop_nil] at hpos
      refine ⟨r, List.mem_cons_self, hfirst r rfl, base % p.capacity, ⟨0, by omega, ?_⟩,
        p.freeSpace, hlt, ?_⟩
      · rw [hpos, Nat.add_zero, Nat.mod_mod]
      · rw [h.writeOffset_eq, Nat.mod_add_mod, Nat.add_comm, hfree, Nat.add_mod_right]

theorem writeOffset_eq_position_iff (h : p.Holds base rs) {u : Receipt} (hu : u ∈ rs) :
    p.writeOffset = u.handle.position ↔ p.freeSpace = 0 ∧ p.oldest = some u.handle := by
  obtain ⟨as, bs, rfl⟩ := List.mem_iff_append.mp hu
  obtain ⟨hbase, -, hstored, hend⟩ := h.at_record
  have hafter := u.le_after p.capacity (Receipt.stop p.capacity base as)
  have hlap := h.stop_le
  have hfree := h.freeSpace_eq
  have hpos := h.position_eq
  have hwrite := h.writeOffset_eq
  have hread := h.readOffset_eq
  have hlive : p.live ≠ 0 := by simp [h.live_eq]
  have h44 : payloadOffset = 44 := rfl
  generalize Receipt.stop p.capacity base (as ++ u :: bs) = stop at *
  generalize Receipt.stop p.capacity base as = v at *
  rw [oldest, if_neg hlive]
  constructor
  · intro he
    have hmod : stop % p.capacity = v % p.capacity := by rw [← hwrite, he, hpos]
    have hstop : stop = base + p.capacity := by
      by_contra hne
      have := eq_of_mod_eq (a := base) (by omega) (by omega) hbase (by omega) hmod
      omega
    have hfirst : v = base := by
      rw [hstop, Nat.add_mod_right] at hmod
      exact eq_of_mod_eq hbase (by omega) le_rfl (by omega) hmod.symm
    refine ⟨by omega, ?_⟩
    rw [hstored.handle, hread, hfirst]
  · rintro ⟨hzero, holdest⟩
    have hstop : stop = base + p.capacity := by omega
    have hsmall : p.readOffset < 2 ^ 32 := by
      have := Nat.mod_lt base p.capacity_pos
      have := p.capacity_le_size
      have := h.small
      omega
    rw [← Option.some.inj holdest, position_at hsmall, hwrite, hread, hstop, Nat.add_mod_right]

end Pool.Holds

namespace Contention

variable {c c' : Contention}

/-- No record was committed since the ticket was made. -/
def Fresh (c : Contention) (t : Ticket) : Prop :=
  t.before = c.receipts.length

/-- A region is written and committed only until another record is. -/
def Careful (c : Contention) : Demand → Prop
  | .reserve | .reserveAtLeast _ => True
  | .write i _ => ∀ t ∈ c.tickets[i]?, t.reservation.isSink = true ∨ c.Fresh t
  | .commit i _ => ∀ t ∈ c.tickets[i]?,
      t.reservation.isSink = true ∨ t.reservation.overflowed = true ∨ c.Fresh t
  | .record o => (Session.mk c.pool none c.receipts).Allows o

instance (c : Contention) (t : Ticket) : Decidable (c.Fresh t) :=
  inferInstanceAs (Decidable (_ = _))

instance (c : Contention) : (d : Demand) → Decidable (c.Careful d)
  | .reserve | .reserveAtLeast _ => inferInstanceAs (Decidable True)
  | .write i _ => inferInstanceAs
      (Decidable (∀ t ∈ c.tickets[i]?, t.reservation.isSink = true ∨ c.Fresh t))
  | .commit i _ => inferInstanceAs (Decidable (∀ t ∈ c.tickets[i]?,
      t.reservation.isSink = true ∨ t.reservation.overflowed = true ∨ c.Fresh t))
  | .record o => inferInstanceAs (Decidable ((Session.mk c.pool none c.receipts).Allows o))

/-- The pool holds the records in use, and the regions of fresh tickets lie in the free space. -/
structure Tended (c : Contention) : Prop where
  charted : c.Charted
  kept : (Session.mk c.pool none c.receipts).Kept
  fits : ∀ t ∈ c.tickets, c.Fresh t → c.pool.Fits t.reservation

namespace Tended

theorem reserve (h : c.Tended) : (c.hand c.pool.reserve).Tended := by
  refine ⟨h.charted.reserve, h.kept, fun t ht hfresh => ?_⟩
  rcases List.mem_append.mp ht with ht | ht
  · exact h.fits t ht hfresh
  · obtain rfl : t = ⟨c.pool.reserve, c.receipts.length⟩ := by simpa using ht
    exact c.pool.fits_reserve

theorem fits_of_sink_or_fresh (h : c.Tended) {t : Ticket} (ht : t ∈ c.tickets)
    (hrule : t.reservation.isSink = true ∨ c.Fresh t) : c.pool.Fits t.reservation := by
  rcases hrule with hsink | hfresh
  · intro r hr
    rw [hr] at hsink
    cases hsink
  · exact h.fits t ht hfresh

theorem write (h : c.Tended) {i : ℕ} {t : Ticket} (hi : c.tickets[i]? = some t)
    (hrule : t.reservation.isSink = true ∨ c.Fresh t)
    {bytes : List UInt8} {q : Pool} {res : Reservation} {fits : Bool}
    (hq : c.pool.write t.reservation bytes = .ok (q, res, fits)) :
    ({ c with pool := q, tickets := c.tickets.set i { t with reservation := res } } :
      Contention).Tended := by
  have hover := (Pool.overwritten_write hq).1
  obtain ⟨base, gone, held, hs⟩ :=
    h.kept.takeUp (h.fits_of_sink_or_fresh (List.mem_of_getElem? hi) hrule)
  obtain ⟨q', res', fits', hq', -, hs'⟩ := hs.write rfl bytes
  rw [hq'] at hq
  obtain ⟨rfl, hres⟩ := Prod.mk.inj (Except.ok.inj hq)
  obtain ⟨rfl, rfl⟩ := Prod.mk.inj hres
  have hkept : Session.Kept _ := ⟨base, gone, held, hs'⟩
  refine ⟨h.charted.write hi hq', hkept.idle, fun u hu hfresh => ?_⟩
  rcases List.mem_or_eq_of_mem_set hu with hu | rfl
  · exact (h.fits u hu hfresh).overwritten hover
  · exact hkept.fits

theorem commit (h : c.Tended) {i : ℕ} {t : Ticket} (hi : c.tickets[i]? = some t)
    (hrule : t.reservation.isSink = true ∨ t.reservation.overflowed = true ∨ c.Fresh t)
    {header : Header} {q : Pool} {answer : Option Handle}
    (hq : c.pool.commit t.reservation header = .ok (q, answer)) :
    (⟨q, c.tickets.eraseIdx i, c.receipts ++ (answer.map
      (Session.issue · (c.pool.content t.reservation) header)).toList⟩ : Contention).Tended := by
  refine ⟨h.charted.commit hi hq, ?_, ?_⟩
  all_goals rcases Pool.commit_cases hq with ⟨rfl, rfl⟩ | ⟨w, k, hw, ho, rfl, hc⟩
  · rw [Option.map_none, Option.toList_none, List.append_nil]
    exact h.kept.drop
  · have hfresh : c.Fresh t := by
      rw [hw] at hrule
      rcases hrule with hsink | hover | hfresh
      · cases hsink
      · exact absurd (ho.symm.trans hover) Bool.false_ne_true
      · exact hfresh
    obtain ⟨base, gone, held, hs⟩ :=
      h.kept.takeUp (h.fits t (List.mem_of_getElem? hi) hfresh)
    obtain ⟨q', handle, hq', -, -, held', hs'⟩ := hs.commit rfl header
    rw [hq'] at hq
    obtain ⟨rfl, rfl⟩ := Prod.mk.inj (Except.ok.inj hq)
    exact ⟨base, gone, held', hs'⟩
  · intro u hu hfresh
    unfold Fresh at hfresh
    rw [Option.map_none, Option.toList_none, List.append_nil] at hfresh
    exact h.fits u (List.mem_of_mem_eraseIdx hu) hfresh
  · -- After the commit of a record no ticket is fresh.
    intro u hu hfresh
    have hle := (h.charted.follows u (List.mem_of_mem_eraseIdx hu)).1
    unfold Fresh at hfresh
    rw [List.length_append] at hfresh
    change u.before = c.receipts.length + 1 at hfresh
    omega

theorem record (h : c.Tended) {o : Request} {s : Session}
    (ho : (Session.mk c.pool none c.receipts).Allows o)
    (hs : (Session.mk c.pool none c.receipts).step o = .ok s) :
    ({ c with pool := s.pool, receipts := s.receipts } : Contention).Tended := by
  have hn := Session.not_oversized hs
  have hlen : s.receipts.length = c.receipts.length := by
    simpa using congrArg List.length (Session.step_pinned hs).2
  obtain ⟨s', hs', hkept⟩ := h.kept.step ho hn
  rw [hs] at hs'
  obtain rfl := Except.ok.inj hs'
  refine ⟨h.charted.record hs, hkept.idle, fun t ht hfresh => ?_⟩
  have hfits : c.pool.Fits t.reservation := h.fits t ht (hfresh.trans hlen)
  rcases Session.step_draft ⟨t.reservation, c.pool.content t.reservation⟩ ho hs with ⟨hp, -⟩ | hd
  · change s.pool.Fits t.reservation
    rwa [hp]
  · obtain ⟨u, hu, hkept'⟩ := (h.kept.takeUp hfits).step (Session.allows_draft _ ho) hn
    rw [hd] at hu
    obtain rfl := Except.ok.inj hu
    exact hkept'.fits

theorem step (h : c.Tended) {d : Demand} (hd : c.Careful d) (hs : c.step d = .ok c') :
    c'.Tended := by
  cases serves_of_step hs with
  | nothing => exact h
  | reserve => exact h.reserve
  | write hi hq => exact h.write hi (hd _ hi) hq
  | commit hi hq => exact h.commit hi (hd _ hi) hq
  | record ho => exact h.record hd ho

end Tended

theorem tended_of_run {p : Pool} {arena : Array UInt8} {priority : Priority}
    (hp : Pool.create arena priority = .ok p) (hmax : arena.size < 2 ^ 32)
    (h : Run Careful step ⟨p, [], []⟩ c) : c.Tended := by
  refine h.invariant ⟨charted_of_run hp .start, ?_, by simp⟩ fun u d v hu hd hs => hu.step hd hs
  exact ⟨_, _, _, Session.Sound.create hp hmax⟩

/-- The stretch of `n` bytes from `start` on has a byte of a record in use. -/
def Meets (c : Contention) (start n : ℕ) : Prop :=
  ∃ u ∈ c.receipts, u.releases = 0 ∧
    ∃ i, c.pool.Covers u.handle.position u.size i ∧ c.pool.Covers start n i

theorem Tended.meets_iff (h : c.Tended) {start n : ℕ} (hs : c.pool.writeOffset = start)
    (hn : n ≤ c.pool.capacity) : c.Meets start n ↔ c.pool.freeSpace < n := by
  obtain ⟨base, gone, held, hk⟩ := h.kept
  have hreceipts : c.receipts = gone ++ held := hk.receipts_eq
  rw [← hk.holds.meets_iff hk.oldest_live hn, ← hs]
  constructor
  · rintro ⟨u, hu, hz, hmeet⟩
    have hnot : u.isReleased = false := by simp [Receipt.isReleased, hz]
    rw [hreceipts] at hu
    rcases List.mem_append.mp hu with hu | hu
    · rw [hk.gone_released u hu] at hnot
      cases hnot
    · exact ⟨u, hu, hnot, hmeet⟩
  · rintro ⟨u, hu, hnot, hmeet⟩
    refine ⟨u, ?_, by simpa [Receipt.isReleased] using hnot, hmeet⟩
    rw [hreceipts]
    exact List.mem_append_right _ hu

theorem Tended.full_iff (h : c.Tended) {u : Receipt} (hu : u ∈ c.receipts) (hz : u.releases = 0) :
    c.pool.writeOffset = u.handle.position ↔
      c.pool.freeSpace = 0 ∧ c.pool.oldest = some u.handle := by
  obtain ⟨base, gone, held, hk⟩ := h.kept
  have hreceipts : c.receipts = gone ++ held := hk.receipts_eq
  rw [hreceipts] at hu
  rcases List.mem_append.mp hu with hu | hu
  · have hgone := hk.gone_released u hu
    simp [Receipt.isReleased, hz] at hgone
  · exact hk.holds.writeOffset_eq_position_iff hu

/-- A commit is stopped unless the records since its reservation make up whole laps of the ring. Then it
may meet one in use. -/
theorem reached_commits (arena : Array UInt8) (priority : Priority) (p : Pool)
    (hp : Pool.create arena priority = .ok p) (hc : Run Anyhow step ⟨p, [], []⟩ c) (t : Ticket)
    (ht : t ∈ c.tickets) (r : Region) (hr : t.reservation = .region r) (ho : r.overflowed = false)
    (header : Header) :
    (c.pool.commit t.reservation header = .error .staleReservation ↔
      ¬ c.pool.capacity ∣ c.pool.distance r.offset (c.since t)) ∧
    (∀ u ∈ (c.since t).head?, u.handle = .at c.pool.priority r.offset) ∧
    (arena.size < 2 ^ 32 → Run Careful step ⟨p, [], []⟩ c →
      (c.pool.capacity ∣ c.pool.distance r.offset (c.since t) →
        (∃ q, c.pool.commit t.reservation header = .ok (q, some (.at c.pool.priority r.offset))) ∧
        (c.Meets r.offset (extent r.written) ↔ c.pool.freeSpace < extent r.written)) ∧
      ∀ u ∈ (c.since t).head?, u.releases = 0 →
        (c.pool.capacity ∣ c.pool.distance r.offset (c.since t) ↔
          c.pool.freeSpace = 0 ∧ c.pool.oldest = some u.handle)) := by
  have htrace := ((charted_of_run hp hc).follows t ht).2 r hr
  have hlaps := htrace.writeOffset_eq_iff
  refine ⟨?_, htrace.first_eq, fun hmax hcareful => ⟨fun hdvd => ?_, fun u hu hz => ?_⟩⟩
  · rw [hr, Pool.commit_stale_iff ho, ne_eq, hlaps]
  · have hat := hlaps.mpr hdvd
    have htend := tended_of_run hp hmax hcareful
    obtain ⟨base, gone, held, hk⟩ := htend.kept
    obtain ⟨q, hq⟩ := hk.holds.publish_at hat header
    refine ⟨⟨q, ?_⟩, htend.meets_iff hat ?_⟩
    · rw [hr, Pool.commit, ho, if_neg Bool.false_ne_true, hq]
      rfl
    · have hroom := htrace.room_le
      exact extent_le (by omega) c.pool.capacity_mod
  · have htend := tended_of_run hp hmax hcareful
    have hmem : u ∈ c.receipts := List.mem_of_mem_drop (List.mem_of_mem_head? hu)
    have hsize := c.pool.capacity_le_size
    have hlt := htrace.offset_lt
    have hsmall : r.offset < 2 ^ 32 := by
      obtain ⟨base, gone, held, hk⟩ := htend.kept
      have := hk.holds.small
      dsimp only at this
      omega
    have hpos : u.handle.position = r.offset := by
      rw [htrace.first_eq u hu, Pool.position_at hsmall]
    rw [← hlaps, ← htend.full_iff hmem hz, hpos]

/-- Two reservations of the whole ring. The second one is committed first, and the commit of the other
one is not stopped. -/
theorem reached_commits_full :
    ∃ p c q, Pool.create (Array.replicate 200 0) .low = .ok p ∧
      Run Careful step ⟨p, [], []⟩ c ∧ c.receipts.map (fun u => (u.handle, u.releases)) =
        [(⟨.low, 0⟩, 0)] ∧
      c.tickets = [⟨.region ⟨0, 0, 156, false⟩, 0⟩] ∧
      c.pool.commit (.region ⟨0, 0, 156, false⟩) {} = .ok (q, some ⟨.low, 0⟩) ∧
      c.Meets 0 (extent 0) := by
  have hroom : minUsage ≤ wholeWords (Array.replicate 200 (0 : UInt8)).size := by decide +kernel
  obtain ⟨p, hp⟩ : ∃ p, Pool.create (Array.replicate 200 0) .low = .ok p := ⟨_, dif_pos hroom⟩
  let demands : List Demand := [.reserve, .reserve, .write 1 (.replicate 156 7), .commit 1 {}]
  have hperform : ((Pool.create (Array.replicate 200 0) .low).toOption.bind fun p =>
      (perform Careful step ⟨p, [], []⟩ demands).map fun c =>
        (c.receipts.map fun u => (u.handle, u.releases), c.tickets, c.pool.freeSpace,
          c.pool.oldest)) =
      some ([(⟨.low, 0⟩, 0)], [⟨.region ⟨0, 0, 156, false⟩, 0⟩], 0, some ⟨.low, 0⟩) := by
    decide +kernel
  rw [hp] at hperform
  obtain ⟨c, hc, he⟩ := Option.map_eq_some_iff.mp hperform
  simp only [Prod.mk.injEq] at he
  obtain ⟨hreceipts, htickets, hfree, holdest⟩ := he
  have hcareful := Run.of_perform hc
  have ht : (⟨.region ⟨0, 0, 156, false⟩, 0⟩ : Ticket) ∈ c.tickets := by rw [htickets]; simp
  obtain ⟨-, hfirst, hrule⟩ := reached_commits (Array.replicate 200 0) .low p hp
    (hcareful.mono fun _ _ _ => trivial) _ ht _ rfl rfl {}
  obtain ⟨hmade, hfull⟩ := hrule (by decide +kernel) hcareful
  obtain ⟨u, hu, hpair⟩ := List.map_eq_singleton_iff.mp hreceipts
  obtain ⟨hhandle, hreleases⟩ := Prod.mk.inj hpair
  have hhead : u ∈ (c.since ⟨.region ⟨0, 0, 156, false⟩, 0⟩).head? := by simp [since, hu]
  have hlaps := (hfull u hhead hreleases).mpr ⟨hfree, by rw [holdest, hhandle]⟩
  obtain ⟨⟨q, hq⟩, hmeets⟩ := hmade hlaps
  rw [← hfirst u hhead, hhandle] at hq
  exact ⟨p, c, q, hp, hcareful, hreceipts, htickets, hq, hmeets.mpr (by rw [hfree]; decide)⟩

end Contention

end EtherBuffer
