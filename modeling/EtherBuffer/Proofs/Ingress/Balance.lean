import EtherBuffer.Proofs.Ingress.Reception

/-! Shares of received frames. A record that the cursor has passed is in one queue more than its header
has sharers. -/
namespace EtherBuffer

namespace PoolPair

theorem get_set_self (pools : PoolPair) (p : Priority) (pool : Pool) :
    (pools.set p pool).get p = some pool := by
  cases p <;> rfl

theorem get_set_of_ne (pools : PoolPair) {p q : Priority} (pool : Pool) (h : p ≠ q) :
    (pools.set p pool).get q = pools.get q := by
  cases p <;> cases q <;> first | rfl | exact absurd rfl h

theorem create_fresh {low : Pool} {high : Option Pool} (hlow : low.Fresh .low)
    (hhigh : ∀ pool ∈ high, pool.Fresh .high) : create low high = .ok ⟨low, high⟩ :=
  if_pos ⟨hlow.priority_eq, fun pool hpool => (hhigh pool hpool).priority_eq⟩

end PoolPair

namespace Ingress.Reception

variable {clients depth : ℕ} {x : Reception clients depth} {p q : Priority} {s t : Session}
  {Q Q' : Fin clients → List Handle} {passed : PerPriority ℕ} {j k : ℕ} {r : Receipt}

theorem session_eq_some_iff : x.session p = some s ↔
    x.pools.get p = some s.pool ∧ x.drafts.get p = s.draft ∧ x.receipts.get p = s.receipts := by
  obtain ⟨pool, draft, receipts⟩ := s
  unfold session
  rw [Option.map_eq_some_iff]
  constructor
  · rintro ⟨pool', hp, he⟩
    obtain ⟨rfl, rfl, rfl⟩ := Session.mk.inj he
    exact ⟨hp, rfl, rfl⟩
  · rintro ⟨hp, rfl, rfl⟩
    exact ⟨pool, hp, rfl⟩

theorem session_setSession (x : Reception clients depth) (p : Priority) (t : Session) :
    (x.setSession p t).session p = some t := by
  rw [session_eq_some_iff]
  exact ⟨PoolPair.get_set_self _ _ _, PerPriority.get_set _ _ _, PerPriority.get_set _ _ _⟩

theorem session_setSession_of_ne (x : Reception clients depth) (t : Session) (h : p ≠ q) :
    (x.setSession p t).session q = x.session q := by
  unfold session setSession
  rw [PoolPair.get_set_of_ne _ _ h, PerPriority.get_set_of_ne _ _ h,
    PerPriority.get_set_of_ne _ _ h]

/-- The record with a number of its class was not released. -/
def Has (x : Reception clients depth) (p : Priority) (j : ℕ) (r : Receipt) : Prop :=
  ∃ s ∈ x.session p, s.receipts[j]? = some r ∧ r.releases = 0

theorem Has.unique {r' : Receipt} (h : x.Has p j r) (h' : x.Has p j r') : r = r' := by
  obtain ⟨s, hs, hj, -⟩ := h
  obtain ⟨s', hs', hj', -⟩ := h'
  obtain rfl := Option.some.inj (hs.symm.trans hs')
  exact Option.some.inj (hj.symm.trans hj')

theorem Has.setSession (h : x.Has q j r) (hs : x.session p = some s) {new : List Receipt}
    (hnew : t.receipts = s.receipts ++ new) : (x.setSession p t).Has q j r := by
  by_cases hq : p = q
  · subst hq
    obtain ⟨s', hs', hj, hr⟩ := h
    obtain rfl := Option.some.inj (hs.symm.trans hs')
    refine ⟨t, x.session_setSession p t, ?_, hr⟩
    rw [hnew, List.getElem?_append_left (List.getElem?_eq_some_iff.mp hj).1, hj]
  · unfold Has
    rwa [x.session_setSession_of_ne t hq]

/-- Beside the dispatcher the record with the number `k` of the session `s` was changed. -/
def Amends (x y : Reception clients depth) (p : Priority) (s : Session) (k : ℕ) (r' : Receipt) :
    Prop :=
  ∃ d pool, y = { x with
    dispatcher := d
    pools := x.pools.set p pool
    receipts := x.receipts.set p (s.receipts.set k r') }

namespace Amends

variable {y : Reception clients depth} {r' : Receipt}

theorem receipts_eq (h : x.Amends y p s k r') :
    y.receipts = x.receipts.set p (s.receipts.set k r') := by
  obtain ⟨d, pool, rfl⟩ := h
  rfl

theorem length_eq (h : x.Amends y p s k r') (hs : x.session p = some s) (q : Priority) :
    (y.receipts.get q).length = (x.receipts.get q).length := by
  rw [h.receipts_eq, ← (session_eq_some_iff.mp hs).2.2]
  by_cases hq : p = q
  · subst hq
    rw [PerPriority.get_set, List.length_set]
  · rw [PerPriority.get_set_of_ne _ _ hq]

theorem getElem?_of_other (h : x.Amends y p s k r') (hs : x.session p = some s)
    (hother : ¬ (q = p ∧ j = k)) : (y.receipts.get q)[j]? = (x.receipts.get q)[j]? := by
  rw [h.receipts_eq, ← (session_eq_some_iff.mp hs).2.2]
  by_cases hq : p = q
  · subst hq
    rw [PerPriority.get_set, List.getElem?_set_ne fun hkj => hother ⟨rfl, hkj.symm⟩]
  · rw [PerPriority.get_set_of_ne _ _ hq]

theorem has_self (h : x.Amends y p s k r') (hs : x.session p = some s) {w : Receipt} :
    y.Has p j w ↔ (s.receipts.set k r')[j]? = some w ∧ w.releases = 0 := by
  obtain ⟨d, pool, rfl⟩ := h
  have hself : session { x with
      dispatcher := d
      pools := x.pools.set p pool
      receipts := x.receipts.set p (s.receipts.set k r') } p =
        some ⟨pool, s.draft, s.receipts.set k r'⟩ := by
    refine session_eq_some_iff.mpr ⟨PoolPair.get_set_self _ _ _, ?_, PerPriority.get_set _ _ _⟩
    exact (session_eq_some_iff.mp hs).2.1
  unfold Has
  rw [hself]
  simp

theorem has_of_ne (h : x.Amends y p s k r') (hq : p ≠ q) {w : Receipt} :
    y.Has q j w ↔ x.Has q j w := by
  obtain ⟨d, pool, rfl⟩ := h
  unfold Has session
  rw [PoolPair.get_set_of_ne _ _ hq, PerPriority.get_set_of_ne _ _ hq]

theorem has_of_other (h : x.Amends y p s k r') (hs : x.session p = some s) {w : Receipt}
    (hw : x.Has q j w) (hother : ¬ (q = p ∧ j = k)) : y.Has q j w := by
  by_cases hq : p = q
  · subst hq
    obtain ⟨u, hu, hj, hlive⟩ := hw
    obtain rfl := Option.some.inj (hs.symm.trans hu)
    refine (h.has_self hs).mpr ⟨?_, hlive⟩
    rwa [List.getElem?_set_ne fun hkj => hother ⟨rfl, hkj.symm⟩]
  · exact (h.has_of_ne hq).mpr hw

end Amends

variable [Positive depth]

/-- The clients await the frames of the lists, and so many records of each class were passed. -/
structure Balanced (x : Reception clients depth) (Q : Fin clients → List Handle)
    (passed : PerPriority ℕ) : Prop where
  awaiting : x.dispatcher.Awaiting Q
  nodup : ∀ i, (Q i).Nodup
  priority_eq : ∀ p, ∀ s ∈ x.session p, s.pool.priority = p
  follows : ∀ p, ∀ s ∈ x.session p, s.Follows (x.dispatcher.cursors.get p) (passed.get p)
  shared : ∀ p j r, x.Has p j r →
    waiting Q r.handle = if j < passed.get p then r.header.sharers.toNat + 1 else 0
  known : ∀ i, ∀ h ∈ Q i, ∃ j r, x.Has h.priority j r ∧ r.handle = h

namespace Balanced

theorem handle_priority (h : x.Balanced Q passed) (hr : x.Has p j r) : r.handle.priority = p := by
  obtain ⟨s, hs, hj, hr⟩ := hr
  obtain ⟨base, gone, held, hk⟩ := (h.follows p s hs).kept
  rw [hk.handle_eq hj hr, ← h.priority_eq p s hs]
  rfl

theorem number_eq (h : x.Balanced Q passed) {r' : Receipt} (hr : x.Has p j r)
    (hr' : x.Has p k r') (he : r.handle = r'.handle) : j = k := by
  obtain ⟨s, hs, hj, hr⟩ := hr
  obtain ⟨s', hs', hk, hr'⟩ := hr'
  obtain rfl : s = s' := Option.some.inj (hs.symm.trans hs')
  obtain ⟨base, gone, held, hk'⟩ := (h.follows p s hs).kept
  rcases Nat.lt_trichotomy j k with hlt | heq | hlt
  · exact absurd he.symm (hk'.handle_ne hj hr hlt hk)
  · exact heq
  · exact absurd he (hk'.handle_ne hk hr' hlt hj)

theorem amend_eq (h : x.Balanced Q passed) (hs : x.session p = some s)
    (hk : s.receipts[k]? = some r) (hr : r.releases = 0) (f : Receipt → Receipt) :
    x.note r.handle f = x.receipts.set p (s.receipts.set k (f r)) := by
  obtain ⟨base, gone, held, hkept⟩ := (h.follows p s hs).kept
  rw [note, h.handle_priority ⟨s, hs, hk, hr⟩, (session_eq_some_iff.mp hs).2.2,
    Receipt.amend_eq_set hk fun i hi t ht => hkept.handle_ne hk hr hi ht]

theorem eq_of_handle (h : x.Balanced Q passed) {r' : Receipt} (hr : x.Has p j r)
    (hr' : x.Has q k r') (he : r.handle = r'.handle) : r = r' := by
  obtain rfl : p = q := by rw [← h.handle_priority hr, he, h.handle_priority hr']
  obtain rfl := h.number_eq hr hr' he
  exact hr.unique hr'

theorem replace (h : x.Balanced Q passed) (hs : x.session p = some s)
    (hprio : t.pool.priority = s.pool.priority) {c : Cursor} {n : ℕ} (hf : t.Follows c n)
    {d : Dispatcher clients depth} (hc : d.cursors = x.dispatcher.cursors.set p c)
    (hd : d.Awaiting Q') (hnd : ∀ i, (Q' i).Nodup)
    (hframe : ∀ y : Handle, y.priority ≠ p → ∀ i, y ∈ Q' i ↔ y ∈ Q i)
    (hshared : ∀ j r, t.receipts[j]? = some r → r.releases = 0 →
      waiting Q' r.handle = if j < n then r.header.sharers.toNat + 1 else 0)
    (hknown : ∀ i, ∀ y ∈ Q' i, y.priority = p →
      ∃ j : ℕ, ∃ r ∈ t.receipts[j]?, r.releases = 0 ∧ r.handle = y) :
    Balanced { x.setSession p t with dispatcher := d } Q' (passed.set p n) := by
  let y : Reception clients depth := { x.setSession p t with dispatcher := d }
  have hself : y.session p = some t := x.session_setSession p t
  have hother (q : Priority) (hq : p ≠ q) : y.session q = x.session q :=
    x.session_setSession_of_ne t hq
  refine ⟨hd, hnd, ?_, ?_, ?_, ?_⟩
  · intro q u hu
    by_cases hq : p = q
    · subst hq
      obtain rfl := Option.some.inj (hself.symm.trans hu)
      exact hprio.trans (h.priority_eq p s hs)
    · exact h.priority_eq q u ((hother q hq).symm.trans hu)
  · intro q u hu
    rw [hc]
    by_cases hq : p = q
    · subst hq
      obtain rfl := Option.some.inj (hself.symm.trans hu)
      rw [PerPriority.get_set, PerPriority.get_set]
      exact hf
    · rw [PerPriority.get_set_of_ne _ _ hq, PerPriority.get_set_of_ne _ _ hq]
      exact h.follows q u ((hother q hq).symm.trans hu)
  · rintro q j w ⟨u, hu, hj, hw⟩
    by_cases hq : p = q
    · subst hq
      obtain rfl := Option.some.inj (hself.symm.trans hu)
      rw [PerPriority.get_set]
      exact hshared j w hj hw
    · have hx : x.Has q j w := ⟨u, (hother q hq).symm.trans hu, hj, hw⟩
      have hne : w.handle.priority ≠ p := by
        rw [h.handle_priority hx]
        exact Ne.symm hq
      rw [waiting_congr (hframe _ hne), PerPriority.get_set_of_ne _ _ hq]
      exact h.shared q j w hx
  · intro i z hz
    by_cases hq : z.priority = p
    · obtain ⟨j, w, hj, hw, he⟩ := hknown i z hz hq
      exact ⟨j, w, ⟨t, by rw [hq]; exact hself, hj, hw⟩, he⟩
    · obtain ⟨j, w, ⟨u, hu, hj, hw⟩, he⟩ := h.known i z ((hframe z hq i).mp hz)
      exact ⟨j, w, ⟨u, (hother _ (Ne.symm hq)).trans hu, hj, hw⟩, he⟩

theorem change (h : x.Balanced Q passed) (hs : x.session p = some s)
    (hk : s.receipts[k]? = some r) (hr : r.releases = 0) {pool : Pool} {r' : Receipt}
    (hprio : pool.priority = s.pool.priority) {c : Cursor} {n : ℕ}
    (hf : Session.Follows { s with pool, receipts := s.receipts.set k r' } c n)
    (hhandle : r'.handle = r.handle) (hothers : ∀ j, j ≠ k → (j < n ↔ j < passed.get p))
    {d : Dispatcher clients depth} (hc : d.cursors = x.dispatcher.cursors.set p c)
    (hd : d.Awaiting Q') (hnd : ∀ i, (Q' i).Nodup)
    (hframe : ∀ y, y ≠ r.handle → ∀ i, y ∈ Q' i ↔ y ∈ Q i)
    (hlive : r'.releases = 0 →
      waiting Q' r.handle = if k < n then r'.header.sharers.toNat + 1 else 0)
    (hgone : r'.releases ≠ 0 → waiting Q' r.handle = 0) :
    Balanced { x with
      dispatcher := d
      pools := x.pools.set p pool
      receipts := x.receipts.set p (s.receipts.set k r') } Q' (passed.set p n) := by
  have hlen : k < s.receipts.length := (List.getElem?_eq_some_iff.mp hk).1
  have hself : (s.receipts.set k r')[k]? = some r' := List.getElem?_set_self hlen
  have hp := h.handle_priority ⟨s, hs, hk, hr⟩
  have hdraft : x.drafts.set p s.draft = x.drafts := by
    rw [← (session_eq_some_iff.mp hs).2.1, PerPriority.set_get]
  let t : Session := { s with pool, receipts := s.receipts.set k r' }
  have hb := h.replace hs (t := t) hprio hf hc hd hnd ?_ ?_ ?_
  · unfold setSession at hb
    rwa [hdraft] at hb
  · intro y hy
    refine hframe y fun he => hy ?_
    rw [he, hp]
  · intro j w hj hw
    by_cases hjk : k = j
    · subst hjk
      obtain rfl := Option.some.inj (hself.symm.trans hj)
      rw [hhandle]
      exact hlive hw
    · rw [List.getElem?_set_ne hjk] at hj
      -- A handle names one record that was not released.
      have hne : w.handle ≠ r.handle := fun he =>
        hjk (h.number_eq ⟨s, hs, hj, hw⟩ ⟨s, hs, hk, hr⟩ he).symm
      rw [waiting_congr (hframe _ hne), h.shared p j w ⟨s, hs, hj, hw⟩]
      exact if_congr (hothers j (Ne.symm hjk)).symm rfl rfl
  · intro i y hy hyp
    by_cases hyr : y = r.handle
    · subst hyr
      have hz : r'.releases = 0 := by
        by_contra hz
        exact waiting_eq_zero_iff.mp (hgone hz) i hy
      exact ⟨k, r', hself, hz, hhandle⟩
    · obtain ⟨j, w, ⟨u, hu, hj, hw⟩, he⟩ := h.known i y ((hframe y hyr i).mp hy)
      rw [hyp] at hu
      obtain rfl := Option.some.inj (hs.symm.trans hu)
      have hjk : k ≠ j := by
        rintro rfl
        obtain rfl : r = w := Option.some.inj (hk.symm.trans hj)
        exact hyr he.symm
      exact ⟨j, w, (List.getElem?_set_ne hjk).trans hj, hw, he⟩

theorem has_of_amends (h : x.Balanced Q passed) (hs : x.session p = some s)
    (hk : s.receipts[k]? = some r) (hr : r.releases = 0) {y : Reception clients depth}
    {passed' : PerPriority ℕ} {r' : Receipt} (hy : x.Amends y p s k r')
    (h' : y.Balanced Q' passed') {w : Receipt} (hw : x.Has q j w) {i : Fin clients} (hi : w.handle ∈ Q' i) :
    y.Has q j (if q = p ∧ j = k then r' else w) := by
  have hlen : k < s.receipts.length := (List.getElem?_eq_some_iff.mp hk).1
  split_ifs with hself
  · obtain ⟨rfl, rfl⟩ := hself
    obtain ⟨u, hu, hj, -⟩ := hw
    obtain rfl := Option.some.inj (hs.symm.trans hu)
    obtain rfl := Option.some.inj (hk.symm.trans hj)
    -- If the change released the record, another one would have its handle.
    obtain ⟨m, w, hm, he⟩ := h'.known i _ hi
    rw [h.handle_priority ⟨s, hs, hk, hr⟩] at hm
    obtain ⟨hget, hlive⟩ := (hy.has_self hs).mp hm
    by_cases hmj : j = m
    · subst hmj
      exact (hy.has_self hs).mpr ⟨List.getElem?_set_self hlen,
        Option.some.inj ((List.getElem?_set_self hlen).symm.trans hget) ▸ hlive⟩
    · rw [List.getElem?_set_ne hmj] at hget
      exact absurd (h.number_eq ⟨s, hs, hk, hr⟩ ⟨s, hs, hget, hlive⟩ he.symm) hmj
  · exact hy.has_of_other hs hw hself

end Balanced

end Ingress.Reception

end EtherBuffer
