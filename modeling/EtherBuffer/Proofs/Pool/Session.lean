import EtherBuffer.Proofs.Pool.Release
import EtherBuffer.Proofs.Pool.Writing
import Mathlib.Data.List.TakeWhile

/-! A pool in use, with the receipts of all records. The pool holds those of the last ones, if its users
keep the rules. -/
namespace EtherBuffer
open Record

structure Draft where
  reservation : Reservation
  bytes : List UInt8
  deriving DecidableEq

/-- A pool with the reservation in use and the receipts of all commits in their order. -/
structure Session where
  pool : Pool
  draft : Option Draft := none
  receipts : List Receipt := []

/-- Records are named by the number of their commit. -/
inductive Request where
  | reserve
  | reserveAtLeast (n : ℕ)
  | write (bytes : List UInt8)
  | commit (header : Header)
  | setHeader (i : ℕ) (header : Header)
  | updateHeader (i : ℕ) (f : Header → Header)
  | takeShare (i : ℕ)
  | free (i : ℕ)

namespace Session

/-- Run an operation on the record with a number, and note what becomes of its receipt. -/
def onRecord (s : Session) (i : ℕ) (run : Receipt → Except Fault Pool) (note : Receipt → Receipt) :
    Except Fault Session :=
  match s.receipts[i]? with
  | none => .ok s
  | some r => do return { s with pool := ← run r, receipts := s.receipts.set i (note r) }

def issue (handle : Handle) (bytes : List UInt8) (header : Header) : Receipt where
  handle := handle
  payload := bytes
  header := { header with length := .ofNat bytes.length, stage := .empty }

/-- The receipts follow from the requests, not from the arena. -/
def step (s : Session) : Request → Except Fault Session
  | .reserve => .ok { s with draft := some ⟨s.pool.reserve, []⟩ }
  | .reserveAtLeast n => do
    match ← s.pool.reserveAtLeast n with
    | some res => return { s with draft := some ⟨res, []⟩ }
    | none => return s
  | .write bytes =>
    match s.draft with
    | none => .ok s
    | some d => do
      let (pool, res, _) ← s.pool.write d.reservation bytes
      return { s with pool, draft := some ⟨res, d.bytes ++ bytes⟩ }
  | .commit header =>
    match s.draft with
    | none => .ok s
    | some d => do
      let (pool, handle) ← s.pool.commit d.reservation header
      return ⟨pool, none, s.receipts ++ (handle.map (issue · d.bytes header)).toList⟩
  | .setHeader i header =>
    s.onRecord i (fun r => s.pool.setHeader r.handle header) fun r => { r with header }
  | .updateHeader i f =>
    s.onRecord i (fun r => s.pool.updateHeader r.handle f) fun r => { r with header := f r.header }
  | .takeShare i =>
    s.onRecord i (fun r => Prod.fst <$> s.pool.takeShare r.handle) Receipt.taken
  | .free i => s.onRecord i (fun r => s.pool.free r.handle) Receipt.release

def Live (s : Session) (i : ℕ) : Prop :=
  ∃ r, s.receipts[i]? = some r ∧ r.releases = 0

/-- Write and commit what was reserved last, and name records that were committed and not released. -/
def Allows (s : Session) : Request → Prop
  | .reserve | .reserveAtLeast _ => True
  | .write _ | .commit _ => s.draft.isSome
  | .setHeader i _ | .updateHeader i _ | .takeShare i | .free i => s.Live i

/-- A session that is reached by requests that keep a rule and are served without a fault. -/
inductive Reached (rule : Session → Request → Prop) (start : Session) : Session → Prop
  | start : Reached rule start start
  | step {s t : Session} (o : Request) : Reached rule start s → rule s o → s.step o = .ok t →
      Reached rule start t

instance (s : Session) (i : ℕ) : Decidable (s.Live i) :=
  decidable_of_iff (∃ r ∈ s.receipts[i]?, r.releases = 0) Iff.rfl

instance (s : Session) : (o : Request) → Decidable (s.Allows o)
  | .reserve | .reserveAtLeast _ => inferInstanceAs (Decidable True)
  | .write _ | .commit _ => inferInstanceAs (Decidable (s.draft.isSome = true))
  | .setHeader i _ | .updateHeader i _ | .takeShare i | .free i =>
    inferInstanceAs (Decidable (s.Live i))

def serve (rule : Session → Request → Prop) [∀ s o, Decidable (rule s o)] (s : Session) :
    List Request → Option Session
  | [] => some s
  | o :: os =>
    if rule s o then
      match s.step o with
      | .ok t => t.serve rule os
      | .error _ => none
    else none

theorem Reached.trans {rule : Session → Request → Prop} {s t u : Session}
    (h : Reached rule s t) (h' : Reached rule t u) : Reached rule s u := by
  induction h' with
  | start => exact h
  | step o _ ho hs ih => exact ih.step o ho hs

theorem reached_of_serve {rule : Session → Request → Prop} [∀ s o, Decidable (rule s o)]
    {s t : Session} {os : List Request} (h : s.serve rule os = some t) : Reached rule s t := by
  induction os generalizing s with
  | nil =>
    obtain rfl : s = t := Option.some.inj h
    exact .start
  | cons o os ih =>
    unfold serve at h
    split_ifs at h with ho
    cases hs : s.step o with
    | error e => simp [hs] at h
    | ok u =>
      rw [hs] at h
      exact (Reached.start.step o ho hs).trans (ih h)

/-- The receipts of the records that take space. -/
def ring (s : Session) : List Receipt :=
  s.receipts.drop (s.receipts.length - s.pool.live)

/-- The pool holds the last receipts, with the oldest record at `base`, and the others are `gone`. -/
structure Sound (s : Session) (base : ℕ) (gone held : List Receipt) : Prop where
  receipts_eq : s.receipts = gone ++ held
  holds : s.pool.Holds base held
  gone_released : ∀ r ∈ gone, r.isReleased = true
  releases_le : ∀ r ∈ s.receipts, r.releases ≤ 1
  oldest_live : ∀ r ∈ held.head?, r.isReleased = false
  committed_eq : s.pool.committed = .ofNat s.receipts.length
  drafted : ∀ r bytes, s.draft = some ⟨.region r, bytes⟩ →
    s.pool.Drafted (Receipt.stop s.pool.capacity base held) (base + s.pool.capacity) r bytes

namespace Sound

variable {s : Session} {base : ℕ} {gone held : List Receipt}

theorem ring_eq (h : s.Sound base gone held) : s.ring = held := by
  have hl := h.holds.live_eq
  rw [ring, hl, h.receipts_eq, List.length_append, Nat.add_sub_cancel, List.drop_left]

theorem create {arena : Array UInt8} {priority : Priority} {p : Pool}
    (hp : Pool.create arena priority = .ok p) (hs : arena.size < 2 ^ 32) :
    (Session.mk p none []).Sound 0 [] [] := by
  unfold Pool.create at hp
  split_ifs at hp with hr
  obtain rfl := Except.ok.inj hp
  refine ⟨rfl, ?_, by simp, by simp, by simp, rfl, by simp⟩
  refine ⟨⟨?_, rfl⟩, ?_, ?_, ?_, rfl, hs⟩
  · simpa [Pool.capacity] using hr
  · simp
  · simp
  · simp

theorem gone_le (h : s.Sound base gone held) {i : ℕ} {r : Receipt} (hi : s.receipts[i]? = some r)
    (hr : r.isReleased = false) : gone.length ≤ i := by
  by_contra hlt
  rw [h.receipts_eq, List.getElem?_append_left (by omega)] at hi
  rw [h.gone_released r (List.mem_of_getElem? hi)] at hr
  exact absurd hr (by simp)

theorem split_of_le (h : s.Sound base gone held) {i : ℕ} {r : Receipt}
    (hi : s.receipts[i]? = some r) (hle : gone.length ≤ i) :
    ∃ as bs, held = as ++ r :: bs ∧ i = gone.length + as.length := by
  rw [h.receipts_eq, List.getElem?_append_right hle] at hi
  obtain ⟨hlt, he⟩ := List.getElem?_eq_some_iff.mp hi
  refine ⟨held.take (i - gone.length), held.drop (i - gone.length + 1), ?_, ?_⟩
  · rw [← he, ← List.drop_eq_getElem_cons hlt, List.take_append_drop]
  · rw [List.length_take]
    omega

theorem split (h : s.Sound base gone held) {i : ℕ} {r : Receipt} (hi : s.receipts[i]? = some r)
    (hr : r.isReleased = false) :
    ∃ as bs, held = as ++ r :: bs ∧ i = gone.length + as.length ∧
      (∀ t ∈ as.head?, t.isReleased = false) ∧
      ∀ r', s.receipts.set i r' = gone ++ (as ++ r' :: bs) := by
  have hgone := h.gone_le hi hr
  obtain ⟨as, bs, hheld, hlen⟩ := h.split_of_le hi hgone
  refine ⟨as, bs, hheld, hlen, ?_, ?_⟩
  · intro t ht
    apply h.oldest_live
    rw [hheld, List.head?_append, ht]
    rfl
  · intro r'
    have has : i - gone.length = as.length := by omega
    rw [h.receipts_eq, List.set_append_right _ _ hgone, hheld, has, List.set_append_right _ _ le_rfl,
      Nat.sub_self, List.set_cons_zero]

theorem change (h : s.Sound base gone held) {i : ℕ} {r' : Receipt} {q : Pool} {base' : ℕ}
    {gone' held' : List Receipt} (hq : q.Holds base' held')
    (hst : s.pool.Steady q (Receipt.stop s.pool.capacity base held) (base + s.pool.capacity))
    (hbase : base ≤ base')
    (hstop : Receipt.stop s.pool.capacity base' held' = Receipt.stop s.pool.capacity base held)
    (hset : s.receipts.set i r' = gone' ++ held') (hgone : ∀ r ∈ gone', r.isReleased = true)
    (hrel : r'.releases ≤ 1) (hold : ∀ r ∈ held'.head?, r.isReleased = false) :
    ({ s with pool := q, receipts := s.receipts.set i r' } : Session).Sound base' gone' held' where
  receipts_eq := hset
  holds := hq
  gone_released := hgone
  releases_le := by
    intro r hr
    rcases List.mem_or_eq_of_mem_set hr with hr | rfl
    · exact h.releases_le r hr
    · exact hrel
  oldest_live := hold
  committed_eq := by
    rw [List.length_set]
    exact hst.committed_eq.trans h.committed_eq
  drafted := by
    intro r bytes hd
    change q.Drafted (Receipt.stop q.capacity base' held') (base' + q.capacity) r bytes
    rw [hst.capacity_eq, hstop]
    exact (h.drafted r bytes hd).steady hst (by omega)

theorem changeHeader (h : s.Sound base gone held) {i : ℕ} {r : Receipt} {as bs : List Receipt}
    (hheld : held = as ++ r :: bs) (hr : r.isReleased = false)
    (hset : ∀ r', s.receipts.set i r' = gone ++ (as ++ r' :: bs)) {q : Pool} {header : Header}
    (hq : q.Holds base (as ++ { r with header } :: bs))
    (hst : s.pool.Steady q (Receipt.stop s.pool.capacity base (as ++ r :: bs))
      (base + s.pool.capacity)) :
    ({ s with pool := q, receipts := s.receipts.set i { r with header } } : Session).Sound base
      gone (as ++ { r with header } :: bs) := by
  subst hheld
  refine h.change hq hst le_rfl (Receipt.stop_congr _ (by simp) _) (hset _) h.gone_released ?_ ?_
  · have : r.releases = 0 := by simpa [Receipt.isReleased] using hr
    simp [this]
  · have hold := h.oldest_live
    cases as with
    | nil =>
      intro t ht
      obtain rfl : { r with header } = t := by simpa using ht
      exact hr
    | cons a as => exact hold

end Sound

theorem onRecord_eq {s : Session} {i : ℕ} {r : Receipt} (hi : s.receipts[i]? = some r)
    (run : Receipt → Except Fault Pool) (note : Receipt → Receipt) :
    s.onRecord i run note = (run r).map fun q =>
      { s with pool := q, receipts := s.receipts.set i (note r) } := by
  simp only [onRecord, hi]
  cases run r <;> rfl

/-- A session whose pool holds the records that were not released. -/
def Kept (s : Session) : Prop :=
  ∃ base gone held, s.Sound base gone held

namespace Sound

variable {s : Session} {base : ℕ} {gone held : List Receipt}

theorem reserve (h : s.Sound base gone held) :
    ({ s with draft := some ⟨s.pool.reserve, []⟩ } : Session).Sound base gone held where
  receipts_eq := h.receipts_eq
  holds := h.holds
  gone_released := h.gone_released
  releases_le := h.releases_le
  oldest_live := h.oldest_live
  committed_eq := h.committed_eq
  drafted := by
    intro r bytes hd
    simp only [Option.some.injEq, Draft.mk.injEq] at hd
    obtain ⟨hd, rfl⟩ := hd
    rcases h.holds.reserve_spec with ⟨-, he⟩ | ⟨r', he, hr'⟩
    · rw [he] at hd
      exact absurd hd (by simp)
    · rw [he] at hd
      obtain rfl := Reservation.region.inj hd
      exact hr'

theorem write (h : s.Sound base gone held) {d : Draft} (hd : s.draft = some d)
    (bytes : List UInt8) :
    ∃ q res fits, s.pool.write d.reservation bytes = .ok (q, res, fits) ∧
      s.pool.Steady q base (Receipt.stop s.pool.capacity base held) ∧
      ({ s with pool := q, draft := some ⟨res, d.bytes ++ bytes⟩ } : Session).Sound base gone
        held := by
  obtain ⟨res, written⟩ := d
  cases res with
  | sink n =>
    refine ⟨_, _, _, rfl, .refl _ _ _, h.receipts_eq, h.holds, h.gone_released, h.releases_le, h.oldest_live,
      h.committed_eq, ?_⟩
    intro r bytes' hd'
    simp at hd'
  | region r =>
    obtain ⟨q, hq, hq', hst, hdr⟩ := h.holds.write_spec (h.drafted r written hd) bytes
    refine ⟨q, _, _, hq, hst, h.receipts_eq, hq', h.gone_released, h.releases_le, h.oldest_live,
      hst.committed_eq.trans h.committed_eq, ?_⟩
    intro r' bytes' hd'
    simp only [Option.some.injEq, Draft.mk.injEq, Reservation.region.injEq] at hd'
    obtain ⟨rfl, rfl⟩ := hd'
    change q.Drafted (Receipt.stop q.capacity base held) (base + q.capacity) _ _
    rw [hst.capacity_eq]
    exact hdr

theorem lose (h : s.Sound base gone held) :
    Sound ⟨s.pool.drop, none, s.receipts⟩ base gone held where
  receipts_eq := h.receipts_eq
  holds := ⟨h.holds.chain.congr rfl rfl fun _ _ _ => rfl, h.holds.readOffset_eq,
    h.holds.writeOffset_eq, h.holds.stop_le, h.holds.live_eq, h.holds.small⟩
  gone_released := h.gone_released
  releases_le := h.releases_le
  oldest_live := h.oldest_live
  committed_eq := h.committed_eq
  drafted := by simp

theorem commit (h : s.Sound base gone held) {d : Draft} (hd : s.draft = some d)
    (header : Header) :
    ∃ q handle, s.pool.commit d.reservation header = .ok (q, handle) ∧
      q.priority = s.pool.priority ∧
      (handle = none ∧ q.writeOffset = s.pool.writeOffset ∨
        handle = some (.at s.pool.priority s.pool.writeOffset)) ∧
      ∃ held', Sound ⟨q, none, s.receipts ++ (handle.map (issue · d.bytes header)).toList⟩ base gone
        held' := by
  obtain ⟨res, bytes⟩ := d
  have lost : Sound ⟨s.pool.drop, none, s.receipts ++ []⟩ base gone held := by
    rw [List.append_nil]
    exact h.lose
  cases res with
  | sink n => exact ⟨_, none, rfl, rfl, Or.inl ⟨rfl, rfl⟩, held, lost⟩
  | region r =>
    cases ho : r.overflowed with
    | true =>
      refine ⟨s.pool.drop, none, ?_, rfl, Or.inl ⟨rfl, rfl⟩, held, lost⟩
      simp only [Pool.commit, ho]
      rfl
    | false =>
      obtain ⟨q, hq, hq', hsize, hprio, hcomm, -⟩ :=
        h.holds.publish_spec (h.drafted r bytes hd) ho header
      refine ⟨q, some (.at s.pool.priority s.pool.writeOffset), ?_, hprio, Or.inr rfl,
        held ++ [issue (.at s.pool.priority s.pool.writeOffset) bytes header], ?_⟩
      · simp only [Pool.commit, ho, hq]
        rfl
      refine ⟨?_, hq', h.gone_released, ?_, ?_, ?_, by simp⟩
      · rw [h.receipts_eq, List.append_assoc]
        rfl
      · intro t ht
        rcases List.mem_append.mp ht with ht | ht
        · exact h.releases_le t ht
        · obtain rfl : t = issue _ bytes header := by simpa using ht
          exact Nat.zero_le 1
      · intro t ht
        have hold := h.oldest_live
        cases held with
        | nil =>
          obtain rfl : issue _ bytes header = t := by simpa using ht
          rfl
        | cons a held => exact hold t ht
      · rw [hcomm, h.committed_eq]
        simp

theorem free (h : s.Sound base gone held) {i : ℕ} {r : Receipt} (hi : s.receipts[i]? = some r)
    (hr : r.releases = 0) :
    ∃ q, s.pool.free r.handle = .ok q ∧
      s.pool.Steady q (Receipt.stop s.pool.capacity base held) (base + s.pool.capacity) ∧
      Kept { s with pool := q, receipts := s.receipts.set i r.release } := by
  have hlive : r.isReleased = false := by simp [Receipt.isReleased, hr]
  obtain ⟨as, bs, hheld, -, hfirst, hset⟩ := h.split hi hlive
  have hh := h.holds
  rw [hheld] at hh
  obtain ⟨q, base', hq, hq', hbase, hstop, hst⟩ := hh.free_spec hlive hfirst
  rw [← hheld] at hstop hst
  let parts := as ++ r.release :: bs
  refine ⟨q, hq, hst, base', gone ++ parts.takeWhile (·.isReleased), _,
    h.change hq' hst hbase hstop ?_ ?_ ?_ ?_⟩
  · rw [hset, List.append_assoc, List.takeWhile_append_dropWhile]
  · intro t ht
    rcases List.mem_append.mp ht with ht | ht
    · exact h.gone_released t ht
    · exact List.mem_takeWhile_imp ht
  · simp [Receipt.release, hr]
  · intro t ht
    have := List.head?_dropWhile_not (·.isReleased) parts
    rw [Option.mem_def.mp ht] at this
    simpa using this

theorem setHeader (h : s.Sound base gone held) {i : ℕ} {r : Receipt}
    (hi : s.receipts[i]? = some r) (hr : r.releases = 0) (header : Header) :
    ∃ q, s.pool.setHeader r.handle header = .ok q ∧
      s.pool.Steady q (Receipt.stop s.pool.capacity base held) (base + s.pool.capacity) ∧
      Kept { s with pool := q, receipts := s.receipts.set i { r with header } } := by
  have hlive : r.isReleased = false := by simp [Receipt.isReleased, hr]
  obtain ⟨as, bs, hheld, -, -, hset⟩ := h.split hi hlive
  have hh := h.holds
  rw [hheld] at hh
  obtain ⟨q, hq, hq', hst⟩ := hh.setHeader_spec header
  refine ⟨q, hq, ?_, _, _, _, h.changeHeader hheld hlive hset hq' hst⟩
  rw [hheld]
  exact hst

theorem header_eq (h : s.Sound base gone held) {i : ℕ} {r : Receipt}
    (hi : s.receipts[i]? = some r) (hr : r.releases = 0) :
    s.pool.header r.handle = .ok r.header := by
  obtain ⟨as, bs, hheld, -⟩ := h.split hi (by simp [Receipt.isReleased, hr])
  have hh := h.holds
  rw [hheld] at hh
  exact hh.header_eq

theorem takeShare (h : s.Sound base gone held) {i : ℕ} {r : Receipt}
    (hi : s.receipts[i]? = some r) (hr : r.releases = 0) :
    ∃ q, s.pool.takeShare r.handle = .ok (q, r.header.sharers) ∧
      s.pool.Steady q (Receipt.stop s.pool.capacity base held) (base + s.pool.capacity) ∧
      Kept { s with pool := q, receipts := s.receipts.set i r.taken } := by
  simp only [Pool.takeShare, h.header_eq hi hr, ok_bind, Receipt.taken]
  by_cases hs : r.header.sharers = 0
  · rw [if_pos hs, if_pos hs, hs]
    obtain ⟨hlt, he⟩ := List.getElem?_eq_some_iff.mp hi
    refine ⟨s.pool, rfl, .refl _ _ _, base, gone, held, ?_⟩
    rw [← he, List.set_getElem_self]
    exact h
  · rw [if_neg hs, if_neg hs]
    obtain ⟨q, hq, hst, hk⟩ := h.setHeader hi hr { r.header with sharers := r.header.sharers - 1 }
    exact ⟨q, by rw [hq]; rfl, hst, hk⟩

theorem release (h : s.Sound base gone held) {i : ℕ} {r : Receipt}
    (hi : s.receipts[i]? = some r) (hr : r.releases = 0) :
    ∃ q, s.pool.release r.handle = .ok q ∧
      s.pool.Steady q (Receipt.stop s.pool.capacity base held) (base + s.pool.capacity) ∧
      Kept { s with pool := q, receipts := s.receipts.set i r.collected } := by
  unfold Pool.release Receipt.collected
  by_cases hs : r.header.sharers = 0
  · obtain ⟨q, hq, hst, hk⟩ := h.free hi hr
    refine ⟨q, ?_, hst, by rwa [if_pos hs]⟩
    rw [Pool.takeShare, h.header_eq hi hr, ok_bind, if_pos hs]
    exact hq
  · obtain ⟨q, hq, hst, hk⟩ := h.takeShare hi hr
    refine ⟨q, ?_, hst, by rwa [if_neg hs]⟩
    rw [hq, ok_bind]
    exact if_neg hs

end Sound

end Session

/-- The request asks for more payload than leaves the size of a record in a machine word. -/
def Request.Oversized : Request → Prop
  | .reserveAtLeast n => sizeLimit ≤ payloadOffset + n + 3
  | _ => False

namespace Session

variable {s : Session}

theorem step_oversized (s : Session) {o : Request} (h : o.Oversized) :
    s.step o = .error .overflow := by
  cases o with
  | reserveAtLeast n =>
    rw [step, s.pool.reserveAtLeast_oversized h]
    rfl
  | _ => exact absurd h id

/-- Every request that the rules allow is served, unless it is oversized, and the pool goes on
holding the records that were not released. -/
theorem Kept.step (h : s.Kept) {o : Request} (ho : s.Allows o) (hn : ¬ o.Oversized) :
    ∃ t, s.step o = .ok t ∧ t.Kept := by
  obtain ⟨base, gone, held, h⟩ := h
  cases o with
  | reserve => exact ⟨_, rfl, _, _, _, h.reserve⟩
  | reserveAtLeast n =>
    have hlt : payloadOffset + n + 3 < sizeLimit := Nat.lt_of_not_le hn
    rw [Session.step, Pool.reserveAtLeast_of_canHold (s.pool.canHold_eq hlt), ok_bind]
    split_ifs
    · exact ⟨_, rfl, _, _, _, h.reserve⟩
    · exact ⟨s, rfl, _, _, _, h⟩
  | write bytes =>
    obtain ⟨d, hd⟩ := Option.isSome_iff_exists.mp ho
    obtain ⟨q, res, fits, hq, -, hs⟩ := h.write hd bytes
    exact ⟨_, by simp only [Session.step, hd, hq]; rfl, _, _, _, hs⟩
  | commit header =>
    obtain ⟨d, hd⟩ := Option.isSome_iff_exists.mp ho
    obtain ⟨q, handle, hq, -, -, held', hs⟩ := h.commit hd header
    exact ⟨_, by simp only [Session.step, hd, hq]; rfl, _, _, _, hs⟩
  | setHeader i header =>
    obtain ⟨r, hi, hr⟩ := ho
    obtain ⟨q, hq, -, hk⟩ := h.setHeader hi hr header
    exact ⟨_, by rw [Session.step, onRecord_eq hi, hq]; rfl, hk⟩
  | updateHeader i f =>
    obtain ⟨r, hi, hr⟩ := ho
    obtain ⟨q, hq, -, hk⟩ := h.setHeader hi hr (f r.header)
    refine ⟨_, ?_, hk⟩
    rw [Session.step, onRecord_eq hi, Pool.updateHeader, h.header_eq hi hr, ok_bind, hq]
    rfl
  | takeShare i =>
    obtain ⟨r, hi, hr⟩ := ho
    obtain ⟨q, hq, -, hk⟩ := h.takeShare hi hr
    exact ⟨_, by rw [Session.step, onRecord_eq hi, hq]; rfl, hk⟩
  | free i =>
    obtain ⟨r, hi, hr⟩ := ho
    obtain ⟨q, hq, -, hk⟩ := h.free hi hr
    exact ⟨_, by rw [Session.step, onRecord_eq hi, hq]; rfl, hk⟩

theorem not_oversized {t : Session} {o : Request} (h : s.step o = .ok t) : ¬ o.Oversized := by
  intro ho
  rw [s.step_oversized ho] at h
  exact absurd h (by simp)

theorem Reached.kept {rule : Session → Request → Prop} {start : Session}
    (h : Reached rule start s) (hrule : ∀ s o, rule s o → s.Allows o) (h₀ : start.Kept) :
    s.Kept := by
  induction h with
  | start => exact h₀
  | step o _ ho hs ih =>
    obtain ⟨t, ht, hk⟩ := ih.step (hrule _ _ ho) (not_oversized hs)
    rw [hs] at ht
    obtain rfl := Except.ok.inj ht
    exact hk

theorem Kept.free_of_released (h : s.Kept) (hr : ∀ r ∈ s.receipts, r.releases ≠ 0) :
    s.pool.live = 0 ∧ s.pool.freeSpace = s.pool.capacity := by
  obtain ⟨base, gone, held, h⟩ := h
  have hnil : held = [] := by
    cases held with
    | nil => rfl
    | cons r held =>
      have hlive := h.oldest_live r rfl
      have hmem : r ∈ s.receipts := by
        rw [h.receipts_eq]
        simp
      exact absurd (by simpa [Receipt.isReleased] using hlive) (hr r hmem)
  have hlive : s.pool.live = 0 := by
    rw [h.holds.live_eq, hnil]
    rfl
  exact ⟨hlive, if_pos hlive⟩

end Session

/-- The pool was made of an arena in which every offset is a word. -/
def Pool.Fresh (pool : Pool) (p : Priority) : Prop :=
  ∃ arena : Array UInt8, arena.size < 2 ^ 32 ∧ Pool.create arena p = .ok pool

theorem Pool.Fresh.priority_eq {pool : Pool} {p : Priority} (h : pool.Fresh p) :
    pool.priority = p := by
  obtain ⟨arena, -, hp⟩ := h
  unfold Pool.create at hp
  split_ifs at hp
  obtain rfl := Except.ok.inj hp
  rfl

theorem Pool.Fresh.kept {pool : Pool} {p : Priority} (h : pool.Fresh p) :
    (Session.mk pool none []).Kept := by
  obtain ⟨arena, hs, hp⟩ := h
  exact ⟨_, _, _, Session.Sound.create hp hs⟩

end EtherBuffer
