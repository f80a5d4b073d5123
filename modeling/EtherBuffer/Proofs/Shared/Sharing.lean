import EtherBuffer.Proofs.Pool.Cursor
import EtherBuffer.Proofs.Pool.Settling
import EtherBuffer.Proofs.Run
import EtherBuffer.Shared.Pool

/-! A pool that two contexts share, in use. A record stays until the last of its clients has given it
up. -/
namespace EtherBuffer
open Record

namespace Shared

/-! ### The operations on a pool with and without an arena -/

namespace SharedPool

def of (p : Pool) : SharedPool :=
  { value := some p }

/-- No operation does anything. -/
structure Inert (s : SharedPool) : Prop where
  isInitialized : s.isInitialized = .ok false
  withPool : ∀ {α : Type} (f : Pool → Except Fault (α × Pool)), s.withPool f = .ok (none, s)
  reserve : s.reserve = .ok (none, s)
  write : ∀ res bytes, s.write res bytes = .ok (none, s)
  commit : ∀ res header, s.commit res header = .ok (none, s)
  free : ∀ h, s.free h = .ok s
  release : ∀ h, s.release h = .ok s
  header : ∀ h, s.header h = .ok (none, s)
  oldest : s.oldest = .ok (none, s)

theorem inert_empty : empty.Inert where
  isInitialized := rfl
  withPool _ := rfl
  reserve := rfl
  write _ _ := rfl
  commit _ _ := rfl
  free _ := rfl
  release _ := rfl
  header _ := rfl
  oldest := rfl

theorem init_empty {arena : Array UInt8} {priority : Priority} {p : Pool}
    (h : Pool.create arena priority = .ok p) :
    empty.init arena priority = .ok (.ok (), of p) := by
  rw [init, h]
  rfl

theorem init_empty_of_small {arena : Array UInt8} {priority : Priority} {e : ConfigError}
    (h : Pool.create arena priority = .error e) :
    empty.init arena priority = .ok (.error e, empty) := by
  rw [init, h]

variable {p q : Pool}

theorem init_of (p : Pool) (arena : Array UInt8) (priority : Priority) :
    (of p).init arena priority = .ok (.error
      (if minUsage ≤ wholeWords arena.size then .invalidConfig else .poolTooSmall), of p) := by
  unfold init Pool.create
  split_ifs <;> rfl

theorem withPool_of {α : Type} {f : Pool → Except Fault (α × Pool)} {a : α}
    (h : f p = .ok (a, q)) : (of p).withPool f = .ok (some a, of q) := by
  have hidle : (of p).access = .idle := rfl
  unfold withPool Cell.write
  rw [if_pos hidle]
  simp only [of, h]
  rfl

theorem reserve_of (p : Pool) : (of p).reserve = .ok (some p.reserve, of p) :=
  withPool_of rfl

theorem write_of {res : Reservation} {bytes : List UInt8} {answer : Reservation × Bool}
    (h : p.write res bytes = .ok (q, answer)) :
    (of p).write res bytes = .ok (some answer, of q) := by
  unfold write
  rw [withPool_of (by rw [h]; rfl)]

theorem commit_of {res : Reservation} {header : Header} {answer : Option Handle}
    (h : p.commit res header = .ok (q, answer)) :
    (of p).commit res header = .ok (answer, of q) := by
  unfold commit
  rw [withPool_of (by rw [h]; rfl)]
  rfl

theorem release_of {h : Handle} (hq : p.release h = .ok q) : (of p).release h = .ok (of q) := by
  unfold release
  rw [withPool_of (by rw [hq]; rfl)]
  rfl

end SharedPool

/-! ### Records with their clients -/

/-- A record as it was committed, and how many of its clients have given it up. -/
structure Share where
  issued : Receipt
  given : ℕ := 0

namespace Share

def others (r : Share) : ℕ :=
  r.issued.header.sharers.toNat

def Held (r : Share) : Prop :=
  r.given ≤ r.others
  deriving Decidable

/-- The header of a record that some clients have given up. -/
def header (r : Share) : Header :=
  { r.issued.header with sharers := .ofNat (r.others - r.given) }

def give (r : Share) : Share :=
  { r with given := r.given + 1 }

/-- What the pool knows of the record. -/
def receipt (r : Share) : Receipt :=
  { r.issued with header := r.header, releases := if r.Held then 0 else 1 }

/-- The record is live and can be read, and its header counts the clients that are left. -/
structure Served (r : Share) (p : Pool) : Prop where
  state : p.stateAt r.issued.handle.position = .ok .live
  header : p.header r.issued.handle = .ok r.header
  payload : ∀ first n, p.readPayload r.issued.handle first n =
    .ok ((r.issued.payload.drop first).take n)

variable {r : Share}

theorem releases_eq_zero (h : r.Held) : r.receipt.releases = 0 :=
  if_pos h

theorem isReleased_eq (r : Share) : r.receipt.isReleased = !decide r.Held := by
  unfold receipt Receipt.isReleased
  by_cases h : r.Held <;> simp [h]

theorem sharers_toNat (r : Share) : r.header.sharers.toNat = r.others - r.given := by
  have hlt := r.issued.header.sharers.toNat_lt
  exact UInt32.toNat_ofNat_of_lt' ((Nat.sub_le _ _).trans_lt hlt)

theorem receipt_issue (h : Handle) (bytes : List UInt8) (header : Header) :
    receipt { issued := Session.issue h bytes header } = Session.issue h bytes header := by
  have hheld : Held { issued := Session.issue h bytes header } := Nat.zero_le _
  simp only [receipt, Share.header, others, if_pos hheld, Nat.sub_zero, UInt32.ofNat_toNat]
  rfl

theorem receipt_give_last (h : r.given = r.others) : r.give.receipt = r.receipt.release := by
  have hheld : r.Held := h.le
  have hspent : ¬ r.give.Held := Nat.not_le.mpr (Nat.lt_succ_of_le h.ge)
  have hheader : r.give.header = r.header := by
    have hnone : r.give.others - r.give.given = r.others - r.given := by
      rw [h, Nat.sub_self]
      exact Nat.sub_eq_zero_of_le (h ▸ Nat.le_succ r.given)
    unfold header
    rw [hnone]
    rfl
  rw [receipt, receipt, if_neg hspent, if_pos hheld, hheader]
  rfl

theorem header_give (h : r.given < r.others) :
    r.give.header = { r.header with sharers := r.header.sharers - 1 } := by
  have hleft := r.sharers_toNat
  have hone : (1 : UInt32) ≤ r.header.sharers := by
    rw [UInt32.le_iff_toNat_le, hleft]
    exact Nat.sub_pos_of_lt h
  have hsharers : r.give.header.sharers = r.header.sharers - 1 := by
    apply UInt32.toNat_inj.mp
    rw [UInt32.toNat_sub_of_le _ _ hone, sharers_toNat, hleft]
    exact Nat.sub_succ' r.others r.given
  rw [← hsharers]
  rfl

theorem receipt_give (h : r.Held) : r.give.receipt = r.receipt.collected := by
  have hleft : r.receipt.header.sharers.toNat = r.others - r.given := r.sharers_toNat
  obtain hlast | hlt := h.eq_or_lt
  · have hzero : r.receipt.header.sharers = 0 := by
      apply UInt32.toNat_inj.mp
      rw [hleft, hlast, Nat.sub_self]
      rfl
    rw [Receipt.collected, if_pos hzero, receipt_give_last hlast]
  · have hne : r.receipt.header.sharers ≠ 0 := by
      intro hzero
      rw [hzero] at hleft
      exact absurd hleft.symm (Nat.sub_pos_of_lt hlt).ne'
    have hheld : r.give.Held := hlt
    rw [Receipt.collected, if_neg hne, Receipt.taken, if_neg hne, receipt, receipt, if_pos hheld,
      if_pos h, header_give hlt]
    rfl

end Share

/-! ### A shared pool in use -/

structure Sharing where
  pool : SharedPool := .empty
  draft : Option Draft := none
  shares : List Share := []

inductive Action where
  | init (arena : Array UInt8) (priority : Priority)
  | reserve
  | write (bytes : List UInt8)
  | commit (header : Header)
  | release (i : ℕ)

namespace Sharing

def step (s : Sharing) : Action → Except Fault Sharing
  | .init arena priority => do
    let (_, pool) ← s.pool.init arena priority
    return { s with pool }
  | .reserve => do
    let (answer, pool) ← s.pool.reserve
    return { s with pool, draft := answer.map (⟨·, []⟩) }
  | .write bytes =>
    match s.draft with
    | none => .ok s
    | some d => do
      let (answer, pool) ← s.pool.write d.reservation bytes
      return { s with pool, draft := answer.map fun (res, _) => ⟨res, d.bytes ++ bytes⟩ }
  | .commit header =>
    match s.draft with
    | none => .ok s
    | some d => do
      let (handle, pool) ← s.pool.commit d.reservation header
      return ⟨pool, none,
        s.shares ++ (handle.map fun h => { issued := Session.issue h d.bytes header }).toList⟩
  | .release i =>
    match s.shares[i]? with
    | none => .ok s
    | some r => do
      let pool ← s.pool.release r.issued.handle
      return { s with pool, shares := s.shares.set i r.give }

/-- An arena has words for all offsets, one reservation is in use at a time, and a record has no more
releases than clients. -/
def Allows (s : Sharing) : Action → Prop
  | .init arena _ => s.pool.value.isSome ∨ arena.size < 2 ^ 32
  | .reserve => True
  | .write _ | .commit _ => s.draft.isSome
  | .release i => ∃ r ∈ s.shares[i]?, r.Held

instance (s : Sharing) : (a : Action) → Decidable (s.Allows a)
  | .init arena _ => inferInstanceAs (Decidable (s.pool.value.isSome = true ∨ arena.size < 2 ^ 32))
  | .reserve => inferInstanceAs (Decidable True)
  | .write _ | .commit _ => inferInstanceAs (Decidable (s.draft.isSome = true))
  | .release i => inferInstanceAs (Decidable (∃ r ∈ s.shares[i]?, r.Held))

/-- The records from the first one on that some client has still to give up. -/
def ring (s : Sharing) : List Share :=
  s.shares.dropWhile fun r => !decide r.Held

def session (s : Sharing) (p : Pool) : Session :=
  ⟨p, s.draft, s.shares.map Share.receipt⟩

/-- The pool has an arena, which holds the records that are not given up. -/
structure Backed (s : Sharing) (p : Pool) : Prop where
  pool_eq : s.pool = .of p
  kept : (s.session p).Kept
  measured : (s.session p).Measured

namespace Backed

variable {s : Sharing} {p : Pool} {i : ℕ} {r : Share}

theorem getElem?_receipts (hi : s.shares[i]? = some r) :
    (s.session p).receipts[i]? = some r.receipt := by
  unfold session
  rw [List.getElem?_map, hi]
  rfl

theorem init (h : s.Backed p) (arena : Array UInt8) (priority : Priority) :
    s.step (.init arena priority) = .ok s := by
  obtain ⟨pool, draft, shares⟩ := s
  obtain rfl : pool = .of p := h.pool_eq
  rw [step, SharedPool.init_of]
  rfl

theorem reserve (h : s.Backed p) :
    ∃ t, s.step .reserve = .ok t ∧ t.Backed p := by
  obtain ⟨base, gone, held, hs⟩ := h.kept
  refine ⟨{ s with draft := some ⟨p.reserve, []⟩ }, ?_, h.pool_eq, ⟨_, _, _, hs.reserve⟩, h.measured⟩
  rw [step, h.pool_eq, SharedPool.reserve_of, ← h.pool_eq]
  rfl

theorem write (h : s.Backed p) (hd : s.draft.isSome) (bytes : List UInt8) :
    ∃ t q, s.step (.write bytes) = .ok t ∧ t.Backed q := by
  obtain ⟨d, hd⟩ := Option.isSome_iff_exists.mp hd
  obtain ⟨base, gone, held, hs⟩ := h.kept
  obtain ⟨q, res, fits, hq, -, hs'⟩ := hs.write hd bytes
  refine ⟨{ s with pool := .of q, draft := some ⟨res, d.bytes ++ bytes⟩ }, q, ?_, rfl,
    ⟨_, _, _, hs'⟩, h.measured⟩
  simp only [step, hd, h.pool_eq, SharedPool.write_of (p := p) hq]
  rfl

theorem commit (h : s.Backed p) (hd : s.draft.isSome) (header : Header) :
    ∃ t q, s.step (.commit header) = .ok t ∧ t.Backed q := by
  obtain ⟨d, hd⟩ := Option.isSome_iff_exists.mp hd
  obtain ⟨base, gone, held, hs⟩ := h.kept
  obtain ⟨q, handle, hq, -, -, held', hs'⟩ := hs.commit hd header
  -- No client has given up a new record, which the session notes in the same way.
  have hstep : (s.session p).step (.commit header) = .ok ⟨q, none, (s.session p).receipts ++
      (handle.map (Session.issue · d.bytes header)).toList⟩ := by
    have hdraft : (s.session p).draft = some d := hd
    simp only [Session.step, hdraft, hq]
    rfl
  let t : Sharing := ⟨.of q, none,
    s.shares ++ (handle.map fun h => { issued := Session.issue h d.bytes header }).toList⟩
  have ht : t.session q = ⟨q, none, (s.session p).receipts ++
      (handle.map (Session.issue · d.bytes header)).toList⟩ := by
    cases handle <;> simp [t, session, Share.receipt_issue]
  refine ⟨t, q, ?_, rfl, ht ▸ ⟨_, _, _, hs'⟩, ht ▸ Session.step_measured hstep h.measured trivial⟩
  simp only [step, hd, h.pool_eq, SharedPool.commit_of (p := p) hq]
  rfl

theorem release (h : s.Backed p) (hi : s.shares[i]? = some r) (hr : r.Held) :
    ∃ t q, s.step (.release i) = .ok t ∧ t.Backed q := by
  obtain ⟨base, gone, held, hs⟩ := h.kept
  obtain ⟨q, hq, -, hk⟩ := hs.release (getElem?_receipts hi) (Share.releases_eq_zero hr)
  let t : Sharing := { s with pool := .of q, shares := s.shares.set i r.give }
  have ht : t.session q =
      { s.session p with pool := q, receipts := (s.session p).receipts.set i r.receipt.collected } := by
    simp [t, session, List.map_set, Share.receipt_give hr]
  refine ⟨t, q, ?_, rfl, ht ▸ hk, ?_⟩
  · have hshared : (SharedPool.of p).release r.issued.handle = _ := SharedPool.release_of hq
    simp only [step, hi, h.pool_eq, hshared]
    rfl
  · rw [ht]
    intro x hx
    rcases List.mem_or_eq_of_mem_set hx with hx | rfl
    · exact h.measured x hx
    · rw [Receipt.collected_length, Receipt.collected_payload]
      exact h.measured _ (List.mem_of_getElem? (getElem?_receipts hi))

theorem step (h : s.Backed p) {a : Action} (ha : s.Allows a) :
    ∃ t q, s.step a = .ok t ∧ t.Backed q := by
  cases a with
  | init arena priority => exact ⟨s, p, h.init arena priority, h⟩
  | reserve =>
    obtain ⟨t, ht, hb⟩ := h.reserve
    exact ⟨t, p, ht, hb⟩
  | write bytes => exact h.write ha bytes
  | commit header => exact h.commit ha header
  | release i =>
    obtain ⟨r, hi, hr⟩ := ha
    exact h.release hi hr

/-! What the users see. -/

theorem served (h : s.Backed p) (hi : s.shares[i]? = some r) (hr : r.Held) : r.Served p := by
  obtain ⟨base, gone, held, hs⟩ := h.kept
  have hreceipt := getElem?_receipts (p := p) hi
  have hlive := Share.releases_eq_zero hr
  exact ⟨hs.stateAt_eq (r := r.receipt) hreceipt hlive, hs.header_eq hreceipt hlive,
    hs.readPayload_eq (r := r.receipt) h.measured hreceipt hlive⟩

theorem release_eq (h : s.Backed p) (hi : s.shares[i]? = some r) (hr : r.Held) :
    p.release r.issued.handle =
      if r.given < r.others then p.setHeader r.issued.handle r.give.header
      else p.free r.issued.handle := by
  have hleft := r.sharers_toNat
  unfold Pool.release Pool.takeShare
  rw [(h.served hi hr).header, ok_bind]
  split_ifs with hz hlt hlt
  · rw [hz] at hleft
    exact absurd hleft.symm (Nat.sub_pos_of_lt hlt).ne'
  · rfl
  · rw [Share.header_give hlt]
    cases p.setHeader r.issued.handle _ with
    | error e => rfl
    | ok q => exact if_neg hz
  · have hlast : r.given = r.others := hr.antisymm (Nat.le_of_not_lt hlt)
    refine absurd (UInt32.toNat_inj.mp ?_) hz
    rw [hleft, hlast, Nat.sub_self]
    rfl

theorem release_spec (h : s.Backed p) (hi : s.shares[i]? = some r) (hr : r.Held) :
    ∃ q, s.pool.release r.issued.handle = .ok (.of q) ∧
      if r.given < r.others then p.setHeader r.issued.handle r.give.header = .ok q
      else p.free r.issued.handle = .ok q := by
  obtain ⟨base, gone, held, hs⟩ := h.kept
  obtain ⟨q, hq, -⟩ := hs.release (getElem?_receipts hi) (Share.releases_eq_zero hr)
  have hq : p.release r.issued.handle = .ok q := hq
  refine ⟨q, by rw [h.pool_eq, SharedPool.release_of hq], ?_⟩
  rw [h.release_eq hi hr] at hq
  split_ifs at hq ⊢ <;> exact hq

theorem ring_eq (h : s.Backed p) : (s.session p).ring = s.ring.map Share.receipt := by
  obtain ⟨base, gone, held, hs⟩ := h.kept
  -- The records that are gone were released, and the oldest one that is left was not.
  have hheld : held = (s.session p).receipts.dropWhile (·.isReleased) := by
    rw [hs.receipts_eq, List.dropWhile_append_of_pos hs.gone_released]
    have hold := hs.oldest_live
    cases held with
    | nil => rfl
    | cons r held => rw [List.dropWhile_cons_of_neg (by simp [hold r rfl])]
  have hspent : (fun r => !decide r.Held) = (fun r : Receipt => r.isReleased) ∘ Share.receipt :=
    funext fun r => r.isReleased_eq.symm
  rw [hs.ring_eq, hheld, ring, hspent]
  exact List.dropWhile_map

theorem space (h : s.Backed p) :
    p.live = s.ring.length ∧ p.oldest = s.ring.head?.map (·.issued.handle) ∧
      ∀ r ∈ s.ring, p.stateAt r.issued.handle.position =
        .ok (if r.Held then .live else .freed) := by
  have hring := h.ring_eq
  have hkept := h.kept
  obtain ⟨base, gone, held, hs⟩ := hkept
  have hholds := hs.holds
  rw [← hs.ring_eq, hring] at hholds
  refine ⟨?_, ?_, fun r hr => ?_⟩
  · rw [← List.length_map (f := Share.receipt)]
    exact hholds.live_eq
  · refine hholds.oldest_eq.trans ?_
    rw [List.head?_map, Option.map_map]
    rfl
  · have hmem : r.receipt ∈ (s.session p).ring := hring ▸ List.mem_map_of_mem hr
    refine (h.kept.stateAt_eq hmem).trans ?_
    rw [Receipt.state, r.isReleased_eq]
    by_cases hheld : r.Held <;> simp [hheld]

theorem empty_of_spent (h : s.Backed p) (hall : ∀ r ∈ s.shares, ¬ r.Held) :
    p.live = 0 ∧ p.freeSpace = p.capacity := by
  apply h.kept.free_of_released
  intro x hx
  obtain ⟨r, hr, rfl⟩ := List.mem_map.mp hx
  rw [Share.receipt, if_neg (hall r hr)]
  exact Nat.one_ne_zero

end Backed

variable {s : Sharing}

/-- Nobody has given the pool an arena, or it holds the records that are in use. -/
def Sound (s : Sharing) : Prop :=
  s = {} ∨ ∃ p, s.Backed p

theorem sound_init {arena : Array UInt8} (h : arena.size < 2 ^ 32) (priority : Priority) :
    ∃ t, step {} (.init arena priority) = .ok t ∧ t.Sound := by
  cases hp : Pool.create arena priority with
  | error e =>
    refine ⟨{}, ?_, .inl rfl⟩
    rw [step, SharedPool.init_empty_of_small hp]
    rfl
  | ok p =>
    refine ⟨{ pool := .of p }, ?_, .inr ⟨p, rfl, ⟨_, _, _, Session.Sound.create hp h⟩, ?_⟩⟩
    · rw [step, SharedPool.init_empty hp]
      rfl
    · intro r hr
      exact absurd hr List.not_mem_nil

/-- Whatever the rules allow is done, and keeps the pool sound. -/
theorem Sound.step (h : s.Sound) {a : Action} (ha : s.Allows a) :
    ∃ t, s.step a = .ok t ∧ t.Sound := by
  obtain rfl | ⟨p, hp⟩ := h
  · cases a with
    | init arena priority => exact sound_init (ha.resolve_left Bool.false_ne_true) priority
    | reserve => exact ⟨{}, rfl, .inl rfl⟩
    | write bytes => exact absurd ha Bool.false_ne_true
    | commit header => exact absurd ha Bool.false_ne_true
    | release i =>
      obtain ⟨r, hi, -⟩ := ha
      cases hi
  · obtain ⟨t, q, ht, hq⟩ := hp.step ha
    exact ⟨t, ht, .inr ⟨q, hq⟩⟩

theorem sound_of_run (h : Run Allows step {} s) : s.Sound := by
  refine h.invariant (P := Sound) (.inl rfl) fun u a v hu ha hs => ?_
  obtain ⟨t, ht, hsound⟩ := hu.step ha
  obtain rfl := Except.ok.inj (hs.symm.trans ht)
  exact hsound

/-- A record is live and read as it was written until the last of its clients gives it up, which frees
it. -/
theorem reached_releases (h : Run Allows step {} s) :
    (∀ a, s.Allows a → ∃ t, s.step a = .ok t) ∧
      (∀ p, s.pool.value = some p →
        (∀ r ∈ s.shares, r.Held → r.Served p ∧
          r.header.sharers.toNat = r.others - r.given ∧
          ∃ q, s.pool.release r.issued.handle = .ok (.of q) ∧
            if r.given < r.others then p.setHeader r.issued.handle r.give.header = .ok q
            else p.free r.issued.handle = .ok q) ∧
        p.live = s.ring.length ∧ p.oldest = s.ring.head?.map (·.issued.handle) ∧
        (∀ r ∈ s.ring, p.stateAt r.issued.handle.position =
          .ok (if r.Held then .live else .freed)) ∧
        ((∀ r ∈ s.shares, ¬ r.Held) → p.live = 0 ∧ p.freeSpace = p.capacity) ∧
        ∀ arena priority, s.pool.init arena priority = .ok (.error
          (if minUsage ≤ wholeWords arena.size then .invalidConfig else .poolTooSmall), s.pool)) ∧
      (s.pool.value = none → s.pool.Inert) := by
  have hsound := sound_of_run h
  refine ⟨fun a ha => ?_, fun p hvalue => ?_, fun hnone => ?_⟩
  · obtain ⟨t, ht, -⟩ := hsound.step ha
    exact ⟨t, ht⟩
  · obtain rfl | ⟨q, hb⟩ := hsound
    · cases hvalue
    obtain rfl : q = p := by
      rw [hb.pool_eq] at hvalue
      exact Option.some.inj hvalue
    obtain ⟨hlive, holdest, hstates⟩ := hb.space
    refine ⟨fun r hr hheld => ?_, hlive, holdest, hstates, hb.empty_of_spent, fun arena priority => ?_⟩
    · obtain ⟨i, hi⟩ := List.mem_iff_getElem?.mp hr
      exact ⟨hb.served hi hheld, r.sharers_toNat, hb.release_spec hi hheld⟩
    · rw [hb.pool_eq]
      exact SharedPool.init_of q arena priority
  · obtain rfl | ⟨q, hb⟩ := hsound
    · exact SharedPool.inert_empty
    · rw [hb.pool_eq] at hnone
      cases hnone

/-- The second of two records is given up first and stays marked behind the other one. -/
theorem reached_releases_interleaved :
    ∃ s p r, Run Allows step {} s ∧ s.pool.value = some p ∧ s.shares[0]? = some r ∧
      r.given = 1 ∧ r.Served p ∧ r.header.sharers = 0 ∧ p.live = 2 ∧
      p.readPayload r.issued.handle 1 5 = .ok [2, 3] ∧
      (∃ q, s.pool.release r.issued.handle = .ok (.of q) ∧ p.free r.issued.handle = .ok q) ∧
      ∃ t q, s.step (.release 0) = .ok t ∧ Run Allows step {} t ∧ t.pool.value = some q ∧
        q.live = 0 ∧ q.freeSpace = q.capacity := by
  let actions : List Action := [.init (.replicate 200 0) .low, .reserve, .write [1, 2, 3],
    .commit { sharers := 1 }, .reserve, .write [4], .commit {}, .release 1, .release 0]
  have hperform : (perform Allows step {} actions).map (fun s => (s.pool.value.map (·.live),
      s.shares.map fun r => (r.issued.payload, r.given, r.others))) =
      some (some 2, [([1, 2, 3], 1, 1), ([4], 1, 0)]) := by
    decide +kernel
  obtain ⟨s, hs, he⟩ := Option.map_eq_some_iff.mp hperform
  obtain ⟨hvalue, hshares⟩ := Prod.mk.inj he
  obtain ⟨p, hp, hlive⟩ := Option.map_eq_some_iff.mp hvalue
  obtain ⟨r, rest, hcons, hfirst, hrest⟩ := List.map_eq_cons_iff.mp hshares
  obtain ⟨u, rfl, hsecond⟩ := List.map_eq_singleton_iff.mp hrest
  simp only [Prod.mk.injEq] at hfirst hsecond
  obtain ⟨hbytes, hgiven, hothers⟩ := hfirst
  have hi : s.shares[0]? = some r := by rw [hcons]; rfl
  have hheld : r.Held := by rw [Share.Held, hgiven, hothers]
  have hrun := Run.of_perform hs
  obtain ⟨hdone, hbacked, -⟩ := reached_releases hrun
  obtain ⟨hserved, hleft, q, hq, hfree⟩ := (hbacked p hp).1 r (List.mem_of_getElem? hi) hheld
  rw [if_neg (by omega)] at hfree
  have hsharers : r.header.sharers = 0 := UInt32.toNat_inj.mp (by rw [hleft, hgiven, hothers]; rfl)
  let t : Sharing := { s with pool := .of q, shares := s.shares.set 0 r.give }
  have ht : s.step (.release 0) = .ok t := by
    simp only [step, hi, hq]
    rfl
  have hrun' : Run Allows step {} t := hrun.step (.release 0) ⟨r, hi, hheld⟩ ht
  have hspent : ∀ x ∈ t.shares, ¬ x.Held := by
    have hgive : r.give.given = 2 ∧ r.give.others = 1 := ⟨congrArg (· + 1) hgiven, hothers⟩
    have hset : t.shares = [r.give, u] := congrArg (·.set 0 r.give) hcons
    rw [hset]
    simp only [List.mem_cons, List.not_mem_nil, or_false, Share.Held]
    rintro x (rfl | rfl) <;> omega
  obtain ⟨-, -, -, -, hempty, -⟩ := (reached_releases hrun').2.1 q rfl
  refine ⟨s, p, r, hrun, hp, hi, hgiven, hserved, hsharers, hlive, ?_, ⟨q, hq, hfree⟩, t, q, ht, hrun',
    rfl, hempty hspent⟩
  rw [hserved.payload, hbytes]
  rfl

end Sharing

end Shared

end EtherBuffer
