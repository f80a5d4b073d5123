import EtherBuffer.Proofs.Ingress.Balance

/-! Classifying frames. The frame at the cursor is released, or queued to as many clients as its header
then says. -/
namespace EtherBuffer

/-- The class whose frames are classified before those of the other one. -/
def Link.Policy.first : Link.Policy → Priority
  | .lowFirst => .low
  | .highFirst => .high

def Link.Policy.second : Link.Policy → Priority
  | .lowFirst => .high
  | .highFirst => .low

theorem Link.Policy.first_ne_second (policy : Link.Policy) : policy.first ≠ policy.second := by
  cases policy <;> exact nofun

theorem Link.Policy.eq_first_or_second (policy : Link.Policy) (p : Priority) :
    p = policy.first ∨ p = policy.second := by
  cases policy <;> cases p <;> simp [first, second]

namespace Ingress

open Link

variable {clients depth : ℕ}

namespace Dispatcher

theorem next_eq (d : Dispatcher clients depth) (pools : PoolPair) :
    d.next pools = (d.pending pools d.policy.first).or (d.pending pools d.policy.second) := by
  unfold next
  cases d.policy <;> exact Option.orElse_eq_or

theorem next_eq_some {d : Dispatcher clients depth} {pools : PoolPair} {h : Handle}
    (hn : d.next pools = some h) : ∃ p, d.pending pools p = some h := by
  rcases Option.or_eq_some_iff.mp ((d.next_eq pools).symm.trans hn) with h₁ | ⟨-, h₁⟩
  · exact ⟨_, h₁⟩
  · exact ⟨_, h₁⟩

theorem next_eq_none {d : Dispatcher clients depth} {pools : PoolPair}
    (hn : d.next pools = none) (p : Priority) : d.pending pools p = none := by
  obtain ⟨h₁, h₂⟩ := Option.or_eq_none_iff.mp ((d.next_eq pools).symm.trans hn)
  rcases d.policy.eq_first_or_second p with rfl | rfl
  · exact h₁
  · exact h₂

theorem wanting_nodup (d : Dispatcher clients depth) (hit : Filter.Hit) (etherType : UInt16) :
    (d.wanting hit etherType).Nodup :=
  (List.nodup_finRange clients).filter _

theorem length_wanting_le (d : Dispatcher clients depth) (hit : Filter.Hit) (etherType : UInt16) :
    (d.wanting hit etherType).length ≤ Recipients.capacity := by
  have hnd := (d.wanting_nodup hit etherType).map Fin.val_injective
  have hsub : (d.wanting hit etherType).map Fin.val ⊆ List.range Recipients.capacity := by
    intro n hn
    obtain ⟨i, hi, rfl⟩ := List.mem_map.mp hn
    have hhas := (List.mem_filter.mp hi).2
    simp only [Bool.and_eq_true, Recipients.has, decide_eq_true_eq] at hhas
    exact List.mem_range.mpr hhas.1.1
  have hle := (hnd.subperm hsub).length_le
  rwa [List.length_map, List.length_range] at hle

/-- The frame goes to clients that want it, or it is released for one of two reasons. -/
theorem classify_cases (d : Dispatcher clients depth) (directory : Directory) (head : List UInt8)
    (length : ℕ) :
    d.classify directory head length = .error .badLength ∨
      d.classify directory head length = .error .noMatch ∨
      ∃ envelope hit, Frame.Envelope.ofHead? head length = some envelope ∧
        hit? directory envelope = some hit ∧ d.classify directory head length =
          .ok ⟨d.wanting hit envelope.etherType, hit, envelope.vlan.isSome⟩ := by
  unfold classify
  cases Frame.Envelope.ofHead? head length with
  | none => exact Or.inl rfl
  | some envelope =>
    cases hh : hit? directory envelope with
    | none => exact Or.inr (Or.inl (by simp only [hh]))
    | some hit =>
      simp only [hh]
      cases hw : d.wanting hit envelope.etherType with
      | nil => exact Or.inr (Or.inl rfl)
      | cons i is => exact Or.inr (Or.inr ⟨envelope, hit, rfl, hh, by rw [hw]⟩)

end Dispatcher

theorem queuedTo_eq_self {Q : Fin clients → List Handle} {y : Handle} {is : List (Fin clients)}
    (h : (is.filter fun i => (Q i).length < depth).length = 0) : queuedTo depth Q y is = Q := by
  have hnone := List.filter_eq_nil_iff.mp (List.length_eq_zero_iff.mp h)
  funext i
  exact if_neg fun hi => hnone i hi.1 (by simpa using hi.2)

def Delivers (depth : ℕ) (directory : Directory) (line : Line) (Q Q' : Fin clients → List Handle)
    (r r' : Receipt) : Prop :=
  ∃ envelope hit is count, Dispatcher.validLength r.payload.length = true ∧
    Frame.Envelope.ofHead? (r.payload.take Frame.envelopeSize) r.payload.length = some envelope ∧
      Dispatcher.hit? directory envelope = some hit ∧ Q' = queuedTo depth Q r.handle is ∧
      r' = { r with header :=
        Dispatcher.deliveredHeader r.header ⟨is, hit, envelope.vlan.isSome⟩ line count }

namespace Reception

variable {x : Reception clients depth} {p : Priority} {s : Session}
  {Q : Fin clients → List Handle} {passed : PerPriority ℕ} {r : Receipt} [Positive depth]

/-- The record at the cursor is released and the queues stay, or its frame is delivered. -/
structure Classifies (x y : Reception clients depth) (directory : Directory) (line : Line)
    (Q Q' : Fin clients → List Handle) (passed : PerPriority ℕ) (p : Priority) (s : Session)
    (r r' : Receipt) : Prop where
  balanced : y.Balanced Q' (passed.set p (passed.get p + 1))
  amends : x.Amends y p s (passed.get p) r'
  outcome : Q' = Q ∨ Delivers depth directory line Q Q' r r'

namespace Balanced

theorem pending_eq (h : x.Balanced Q passed) (p : Priority) :
    x.dispatcher.pending x.pools p =
      (x.session p).bind fun s => s.receipts[passed.get p]?.map (·.handle) := by
  have hf := h.follows p
  unfold Dispatcher.pending session at *
  cases hp : x.pools.get p with
  | none => rfl
  | some pool =>
    rw [hp] at hf
    exact (hf _ rfl).atCursor_eq

theorem waiting_eq_zero (h : x.Balanced Q passed) (hs : x.session p = some s) {j : ℕ}
    (hj : s.receipts[j]? = some r) (hle : passed.get p ≤ j) : waiting Q r.handle = 0 := by
  rw [h.shared p j r ⟨s, hs, hj, (h.follows p s hs).ahead j hle r hj⟩, if_neg (by omega)]

section Next

variable (h : x.Balanced Q passed) (hs : x.session p = some s)
  (hk : s.receipts[passed.get p]? = some r) {d : Dispatcher clients depth} {c : Cursor}
  (hc : d.cursors = x.dispatcher.cursors.set p c) (hf : s.Follows c (passed.get p + 1))
include h hs hk hc hf

theorem reject (hd : d.Awaiting Q) (directory : Directory) (line : Line) (why : Disposition)
    (hwhy : ∀ count, why ≠ .delivered count) :
    ∃ y, d.reject x.pools s.pool r.handle why = .ok y ∧
      x.Classifies (x.classified directory line y) directory line Q Q passed p s r r.release := by
  obtain ⟨base, gone, held, hsound⟩ := hf.kept
  have hr := (h.follows p s hs).ahead _ le_rfl r hk
  obtain ⟨pool, hfree, hst, hkept⟩ := hsound.free hk hr
  let y : Processed clients depth := ⟨{ d with rejected := d.rejected + 1 },
    x.pools.set r.handle.priority pool, r.handle, why⟩
  have hreject : d.reject x.pools s.pool r.handle why = .ok y := by
    rw [Dispatcher.reject, hfree]
    rfl
  have hout : x.dispatcher.outcome directory line why = Receipt.release := by
    funext t
    cases why with
    | delivered count => exact absurd rfl (hwhy count)
    | noMatch => rfl
    | badLength => rfl
    | queuesFull => rfl
  have heq : x.classified directory line y = { x with
      dispatcher := y.dispatcher
      pools := x.pools.set p pool
      receipts := x.receipts.set p (s.receipts.set (passed.get p) r.release) } := by
    rw [classified, hout, h.amend_eq hs hk hr, ← h.handle_priority ⟨s, hs, hk, hr⟩]
  refine ⟨y, hreject, ?_, ⟨_, _, heq⟩, .inl rfl⟩
  have hfollows := hf.change hk (Nat.lt_succ_self _) hst hkept rfl rfl rfl
  rw [heq]
  refine h.change hs hk hr hst.priority_eq hfollows rfl (by omega) hc hd h.nodup
    (fun _ _ _ => Iff.rfl) ?_ fun _ => h.waiting_eq_zero hs hk le_rfl
  intro hz
  exact absurd hz (by simp [Receipt.release])

/-- A frame that `n` clients got is in balance when its header has `n - 1` sharers. -/
theorem deliver {is : List (Fin clients)} (hd : d.Awaiting (queuedTo depth Q r.handle is))
    (hnd : is.Nodup) {n : ℕ} (hn : (is.filter fun i => (Q i).length < depth).length = n)
    (hpos : 0 < n) (hle : n ≤ Recipients.capacity) {header : Header}
    {pool : Pool} {lo hi : ℕ} (hst : s.pool.Steady pool lo hi)
    (hkept : Session.Kept { s with
      pool, receipts := s.receipts.set (passed.get p) { r with header } })
    (hlength : header.length = r.header.length) (hsharers : header.sharers = .ofNat (n - 1)) :
    Balanced { x with
      dispatcher := d
      pools := x.pools.set p pool
      receipts := x.receipts.set p (s.receipts.set (passed.get p) { r with header }) }
        (queuedTo depth Q r.handle is) (passed.set p (passed.get p + 1)) := by
  have hr := (h.follows p s hs).ahead _ le_rfl r hk
  have hzero := waiting_eq_zero_iff.mp (h.waiting_eq_zero hs hk le_rfl)
  have h31 : Recipients.capacity = 31 := rfl
  have hfollows := hf.change hk (Nat.lt_succ_self _) hst hkept rfl rfl hlength
  refine h.change hs hk hr hst.priority_eq hfollows rfl (by omega) hc hd ?_ ?_ ?_ ?_
  · intro i
    unfold queuedTo
    split_ifs
    · refine List.nodup_append.mpr ⟨h.nodup i, List.nodup_singleton _, fun y hy z hz he => ?_⟩
      rw [he, List.mem_singleton.mp hz] at hy
      exact hzero i hy
    · exact h.nodup i
  · intro y hy i
    rw [mem_queuedTo]
    simp [hy]
  · intro _
    rw [waiting_queuedTo depth hzero hnd, hn, if_pos (Nat.lt_succ_self _), hsharers,
      UInt32.toNat_ofNat', Nat.mod_eq_of_lt (by omega)]
    omega
  · intro hz
    exact absurd hr hz

theorem distribute (hd : d.Awaiting Q) (directory : Directory) (line : Line)
    {envelope : Frame.Envelope} {hit : Filter.Hit}
    (hv : Dispatcher.validLength r.payload.length = true)
    (henvelope : Frame.Envelope.ofHead? (r.payload.take Frame.envelopeSize) r.payload.length =
      some envelope)
    (hhit : Dispatcher.hit? directory envelope = some hit)
    (hclass : x.dispatcher.classify directory (r.payload.take Frame.envelopeSize)
      r.payload.length = .ok
        ⟨x.dispatcher.wanting hit envelope.etherType, hit, envelope.vlan.isSome⟩) :
    ∃ y Q' r', d.distribute x.pools s.pool r.handle r.header
        ⟨x.dispatcher.wanting hit envelope.etherType, hit, envelope.vlan.isSome⟩ line = .ok y ∧
      x.Classifies (x.classified directory line y) directory line Q Q' passed p s r r' := by
  let is := x.dispatcher.wanting hit envelope.etherType
  have hnd : is.Nodup := x.dispatcher.wanting_nodup hit envelope.etherType
  have hr := (h.follows p s hs).ahead _ le_rfl r hk
  have hle : (is.filter fun i => (Q i).length < depth).length ≤ Recipients.capacity :=
    (List.length_filter_le _ _).trans (x.dispatcher.length_wanting_le hit envelope.etherType)
  obtain ⟨hd', hcount⟩ := hd.deliverAll r.handle hnd
  have hcur := (congrArg Dispatcher.cursors (d.deliverAll_fst r.handle is)).trans hc
  unfold Dispatcher.distribute
  simp only []
  by_cases hn : (is.filter fun i => (Q i).length < depth).length = 0
  · -- Nobody has room, and the queues stay as they are.
    rw [queuedTo_eq_self hn] at hd'
    rw [if_pos (hcount.trans hn)]
    obtain ⟨y, hy, hb⟩ := h.reject hs hk hcur hf hd' directory line .queuesFull (by simp)
    exact ⟨y, Q, _, hy, hb⟩
  · obtain ⟨base, gone, held, hsound⟩ := hf.kept
    rw [if_neg (by rw [hcount]; exact hn), hcount]
    generalize hlen : (is.filter fun i => (Q i).length < depth).length = n at *
    have h31 : Recipients.capacity = 31 := rfl
    let header := Dispatcher.deliveredHeader r.header ⟨is, hit, envelope.vlan.isSome⟩ line n
    obtain ⟨pool, hset, hst, hkept⟩ := hsound.setHeader hk hr header
    have hb := h.deliver hs hk hcur hf hd' hnd hlen (Nat.pos_of_ne_zero hn) hle hst hkept rfl rfl
    have hout : x.dispatcher.outcome directory line (.delivered (.ofNat n)) r =
        { r with header } := by
      have hnat : (UInt32.ofNat n).toNat = n := by
        rw [UInt32.toNat_ofNat', Nat.mod_eq_of_lt (by omega)]
      unfold Dispatcher.outcome
      simp only [hclass, hnat]
      rfl
    let y : Processed clients depth := ⟨(d.deliverAll r.handle is).1,
      x.pools.set r.handle.priority pool, r.handle, .delivered (.ofNat n)⟩
    have heq : x.classified directory line y = { x with
        dispatcher := y.dispatcher
        pools := x.pools.set p pool
        receipts := x.receipts.set p (s.receipts.set (passed.get p) { r with header }) } := by
      rw [classified, h.amend_eq hs hk hr, hout, ← h.handle_priority ⟨s, hs, hk, hr⟩]
    refine ⟨y, queuedTo depth Q r.handle is, { r with header }, ?_, ?_, ⟨_, _, heq⟩,
      .inr ⟨envelope, hit, is, n, hv, henvelope, hhit, rfl, rfl⟩⟩
    · rw [hset]
      rfl
    · rw [heq]
      exact hb

theorem dispatch (hd : d.Awaiting Q) (hclients : d.clients = x.dispatcher.clients)
    (directory : Directory) (line : Line) :
    ∃ y Q' r', d.dispatch x.pools s.pool r.handle directory line = .ok y ∧
      x.Classifies (x.classified directory line y) directory line Q Q' passed p s r r' := by
  obtain ⟨base, gone, held, hsound⟩ := hf.kept
  have hr := (h.follows p s hs).ahead _ le_rfl r hk
  have hlen := hsound.length_toNat hf.measured hk hr
  have hclass : d.classify directory = x.dispatcher.classify directory := by
    funext head n
    unfold Dispatcher.classify Dispatcher.wanting
    rw [hclients]
  unfold Dispatcher.dispatch
  rw [hsound.header_eq hk hr, ok_bind, hsound.readPayload_eq hf.measured hk hr, List.drop_zero]
  simp only [hlen, ok_bind, hclass]
  by_cases hv : Dispatcher.validLength r.payload.length
  · rw [if_neg (by simpa using hv)]
    rcases x.dispatcher.classify_cases directory (r.payload.take Frame.envelopeSize)
      r.payload.length with he | he | ⟨envelope, hit, henvelope, hhit, he⟩
    · obtain ⟨y, hy, hb⟩ := h.reject hs hk hc hf hd directory line .badLength (by simp)
      exact ⟨y, Q, _, by rw [he]; exact hy, hb⟩
    · obtain ⟨y, hy, hb⟩ := h.reject hs hk hc hf hd directory line .noMatch (by simp)
      exact ⟨y, Q, _, by rw [he]; exact hy, hb⟩
    · rw [he]
      exact h.distribute hs hk hc hf hd directory line hv henvelope hhit he
  · rw [if_pos (by simpa using hv)]
    obtain ⟨y, hy, hb⟩ := h.reject hs hk hc hf hd directory line .badLength (by simp)
    exact ⟨y, Q, _, hy, hb⟩

end Next

theorem process (h : x.Balanced Q passed) (directory : Directory) (line : Line) :
    (∀ p, x.dispatcher.pending x.pools p = none) ∧ x.process directory line = .ok none ∨
      ∃ y Q' p s r r', x.process directory line = .ok (some y) ∧ x.session p = some s ∧
        s.receipts[passed.get p]? = some r ∧ x.dispatcher.next x.pools = some r.handle ∧
        x.Classifies y directory line Q Q' passed p s r r' := by
  unfold Reception.process Dispatcher.process
  cases hn : x.dispatcher.next x.pools with
  | none => exact Or.inl ⟨Dispatcher.next_eq_none hn, rfl⟩
  | some y =>
    obtain ⟨p, hp⟩ := Dispatcher.next_eq_some hn
    rw [h.pending_eq] at hp
    obtain ⟨s, hs, hp⟩ := Option.bind_eq_some_iff.mp hp
    obtain ⟨r, hk, rfl⟩ := Option.map_eq_some_iff.mp hp
    have hf := h.follows p s hs
    obtain ⟨c, hadv, hc⟩ := hf.advance hk
    obtain ⟨z, Q', r', hz, hb⟩ := h.dispatch hs hk (c := c)
      (d := { x.dispatcher with cursors := x.dispatcher.cursors.set p c }) rfl hc h.awaiting rfl
      directory line
    refine Or.inr ⟨_, Q', p, s, r, r', ?_, hs, hk, rfl, hb⟩
    simp only [h.handle_priority ⟨s, hs, hk, hf.ahead _ le_rfl r hk⟩,
      (session_eq_some_iff.mp hs).1, hadv, ok_bind, hz]
    rfl

end Balanced

end Reception

end Ingress

end EtherBuffer
