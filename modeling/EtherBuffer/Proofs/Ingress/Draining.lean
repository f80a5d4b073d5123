import EtherBuffer.Proofs.Ingress.Parcels
import EtherBuffer.Proofs.Ingress.Verdict

/-! Draining the pools: first all frames of the class that the policy names, then all of the other one.
-/
namespace EtherBuffer.Ingress

open Link

variable {clients depth : ℕ}

namespace Dispatcher

variable [Positive depth] {d d' : Dispatcher clients depth} {pools pools' : PoolPair}
  {directory : Directory} {line : Line} {rs : List (Processed clients depth)}

/-- Frames are classified one after the other, as long as one is pending. -/
inductive Drains (directory : Directory) (line : Line) : Dispatcher clients depth → PoolPair →
    List (Processed clients depth) → Dispatcher clients depth → PoolPair → Prop
  | stop {d : Dispatcher clients depth} {pools : PoolPair} :
    d.process pools directory line = .ok none → Drains directory line d pools [] d pools
  | step {d d' : Dispatcher clients depth} {pools pools' : PoolPair}
    {r : Processed clients depth} {rs : List (Processed clients depth)} :
    d.process pools directory line = .ok (some r) →
      Drains directory line r.dispatcher r.pools rs d' pools' →
      Drains directory line d pools (r :: rs) d' pools'

theorem Drains.processUpTo_eq (h : Drains directory line d pools rs d' pools') {n : ℕ}
    (hn : rs.length ≤ n) :
    processUpTo directory line n d pools = .ok (d', pools', rs.length) := by
  induction h generalizing n with
  | stop hstop =>
    cases n with
    | zero => rfl
    | succ n =>
      rw [processUpTo, hstop]
      rfl
  | step hstep _ ih =>
    cases n with
    | zero => cases hn
    | succ n =>
      rw [processUpTo, hstep, ok_bind]
      simp only [ih (Nat.le_of_succ_le_succ hn), ok_bind]
      rfl

theorem dispatch_policy {pool : Pool} {h : Handle} {y : Processed clients depth}
    (hy : d.dispatch pools pool h directory line = .ok y) : y.dispatcher.policy = d.policy := by
  unfold dispatch at hy
  obtain ⟨header, -, hy⟩ := bind_eq_ok_iff.mp hy
  dsimp only at hy
  split_ifs at hy
  · rw [(reject_eq hy).1]
  · obtain ⟨head, -, hy⟩ := bind_eq_ok_iff.mp hy
    cases hc : d.classify directory head header.length.toNat with
    | error why =>
      rw [hc] at hy
      rw [(reject_eq hy).1]
    | ok delivery =>
      rw [hc] at hy
      have hpolicy := congrArg policy (d.deliverAll_fst h delivery.receivers)
      rcases (distribute_eq hy).2 with ⟨-, he, -⟩ | ⟨-, he, -⟩
      · rw [he]
        exact hpolicy
      · rw [he]
        exact hpolicy

theorem process_policy {y : Processed clients depth}
    (hy : d.process pools directory line = .ok (some y)) : y.dispatcher.policy = d.policy := by
  unfold process at hy
  split at hy
  · cases hy
  split at hy
  · cases hy
  obtain ⟨cursor, -, hy⟩ := bind_eq_ok_iff.mp hy
  obtain ⟨z, hz, hy⟩ := bind_eq_ok_iff.mp hy
  obtain rfl : z = y := Option.some.inj (Except.ok.inj hy)
  have hpolicy := dispatch_policy hz
  exact hpolicy

end Dispatcher

namespace Traffic

/-- The records of a class that were committed and not yet classified. -/
def ahead (t : Traffic clients depth) (p : Priority) : List Receipt :=
  match t.reception.pools.get p with
  | none => []
  | some _ => (t.issued.get p).drop (t.passed.get p)

def agenda (t : Traffic clients depth) : List Receipt :=
  t.ahead t.reception.dispatcher.policy.first ++ t.ahead t.reception.dispatcher.policy.second

variable {t : Traffic clients depth} {p : Priority}

theorem length_agenda (t : Traffic clients depth) :
    t.agenda.length = (t.ahead .low).length + (t.ahead .high).length := by
  rw [agenda, List.length_append]
  cases t.reception.dispatcher.policy with
  | lowFirst => rfl
  | highFirst => exact Nat.add_comm _ _

theorem ahead_of_agenda (h : t.agenda = []) (p : Priority) :
    t.ahead p = [] := by
  have hlength := t.length_agenda
  rw [h, List.length_nil] at hlength
  cases p <;> exact List.length_eq_zero_iff.mp (by omega)

theorem ahead_of_get {pool : Pool} (h : t.reception.pools.get p = some pool) :
    t.ahead p = (t.issued.get p).drop (t.passed.get p) := by
  rw [ahead, h]

theorem ahead_classified {s : Session} {k : ℕ} {r' : Receipt} {y : Reception clients depth}
    (hs : t.reception.session p = some s) (hy : t.reception.Amends y p s k r') (q : Priority) :
    (t.classified directory line p y).ahead q = if q = p then (t.ahead p).tail else t.ahead q := by
  obtain ⟨d, pool, rfl⟩ := hy
  split_ifs with hq
  · subst hq
    rw [ahead_of_get (Reception.session_eq_some_iff.mp hs).1, List.tail_drop]
    refine (ahead_of_get (PoolPair.get_set_self _ _ pool)).trans ?_
    change (t.issued.get q).drop ((t.passed.set q _).get q) = _
    rw [PerPriority.get_set]
  · have hpools := PoolPair.get_set_of_ne t.reception.pools pool (Ne.symm hq)
    have hpassed := PerPriority.get_set_of_ne t.passed (t.passed.get p + 1) (Ne.symm hq)
    unfold ahead
    change (match (t.reception.pools.set p pool).get q with
      | none => []
      | some _ => (t.issued.get q).drop ((t.passed.set p _).get q)) = _
    rw [hpools, hpassed]

namespace Tracked

variable [Positive depth] {Q : Fin clients → List Handle}

theorem get?_ahead (h : t.Tracked Q) {s : Session} (hs : t.reception.session p = some s) (j : ℕ) :
    (t.ahead p)[j]? = s.receipts[t.passed.get p + j]? := by
  obtain ⟨hpool, -, hreceipts⟩ := Reception.session_eq_some_iff.mp hs
  rw [ahead_of_get hpool, List.getElem?_drop, h.unread p _ (Nat.le_add_right _ _), hreceipts]

theorem backlog_eq (h : t.Tracked Q) (p : Priority) :
    t.reception.dispatcher.backlog t.reception.pools p = (t.ahead p).length := by
  unfold Dispatcher.backlog ahead
  cases hp : t.reception.pools.get p with
  | none => rfl
  | some pool =>
    have hs : t.reception.session p =
        some ⟨pool, t.reception.drafts.get p, t.reception.receipts.get p⟩ :=
      Reception.session_eq_some_iff.mpr ⟨hp, rfl, rfl⟩
    rw [List.length_drop, h.length_eq p]
    exact (h.balanced.follows p _ hs).pending_eq

theorem pending_eq (h : t.Tracked Q) (p : Priority) :
    t.reception.dispatcher.pending t.reception.pools p = (t.ahead p).head?.map (·.handle) := by
  rw [h.balanced.pending_eq p]
  cases hs : t.reception.session p with
  | none =>
    have hp : t.reception.pools.get p = none := Option.map_eq_none_iff.mp hs
    rw [ahead, hp]
    rfl
  | some s => rw [List.head?_eq_getElem?, h.get?_ahead hs 0, Nat.add_zero, Option.bind_some]

theorem next_eq (h : t.Tracked Q) :
    t.reception.dispatcher.next t.reception.pools = t.agenda.head?.map (·.handle) := by
  rw [Dispatcher.next_eq, h.pending_eq, h.pending_eq, agenda, List.head?_append]
  cases (t.ahead t.reception.dispatcher.policy.first).head? <;> rfl

theorem handle_priority (h : t.Tracked Q) {r : Receipt} (hr : r ∈ t.ahead p) :
    r.handle.priority = p := by
  obtain ⟨j, hj⟩ := List.mem_iff_getElem?.mp hr
  cases hs : t.reception.session p with
  | none =>
    have hp : t.reception.pools.get p = none := Option.map_eq_none_iff.mp hs
    rw [ahead, hp] at hj
    cases hj
  | some s =>
    rw [h.get?_ahead hs] at hj
    have hlive := (h.balanced.follows p s hs).ahead _ (Nat.le_add_right _ _) r hj
    exact h.balanced.handle_priority ⟨s, hs, hj, hlive⟩

theorem process_cons (h : t.Tracked Q) {r : Receipt} {rest : List Receipt}
    (hr : t.agenda = r :: rest) (directory : Directory) (line : Line) :
    ∃ z u Q', t.reception.dispatcher.process t.reception.pools directory line = .ok (some z) ∧
      z.handle = r.handle ∧ t.process directory line = .ok (some u) ∧ u.Tracked Q' ∧
      u.reception.dispatcher = z.dispatcher ∧ u.reception.pools = z.pools ∧ u.agenda = rest := by
  rcases h.process_cases directory line with
    ⟨hn, -⟩ | ⟨y, Q', p, s, w, w', hn, hy, he, hs, hk, hclassifies⟩
  · rw [h.next_eq, hr] at hn
    cases hn
  obtain ⟨-, -, z, -, -, -, -, -, hz, hzw, -⟩ := h.balanced.decides hn directory line
  have hwr : w.handle = r.handle := by
    rw [h.next_eq, hr] at hn
    exact (Option.some.inj hn).symm
  have hp : p = r.handle.priority := by
    have hlive := (h.balanced.follows p s hs).ahead _ le_rfl w hk
    rw [← hwr, h.balanced.handle_priority ⟨s, hs, hk, hlive⟩]
  rw [Reception.process, hz] at hy
  obtain rfl := Option.some.inj (Except.ok.inj hy)
  refine ⟨z, _, Q', hz, hzw.trans hwr, he, h.classified hs hk hclassifies, rfl, rfl, ?_⟩
  have hpolicy := Dispatcher.process_policy hz
  have hne := t.reception.dispatcher.policy.first_ne_second
  change ahead _ z.dispatcher.policy.first ++ ahead _ z.dispatcher.policy.second = rest
  rw [hpolicy, ahead_classified hs hclassifies.amends, ahead_classified hs hclassifies.amends]
  unfold agenda at hr
  cases hfirst : t.ahead t.reception.dispatcher.policy.first with
  | nil =>
    -- The first class is done, so that the frame is of the other one.
    rw [hfirst, List.nil_append] at hr
    obtain rfl : p = t.reception.dispatcher.policy.second :=
      hp.trans (h.handle_priority (by rw [hr]; exact List.mem_cons_self))
    rw [if_neg hne, if_pos rfl, hr]
    rfl
  | cons r' rest' =>
    rw [hfirst, List.cons_append] at hr
    obtain ⟨rfl, rfl⟩ := List.cons.inj hr
    obtain rfl : p = t.reception.dispatcher.policy.first :=
      hp.trans (h.handle_priority (by rw [hfirst]; exact List.mem_cons_self))
    rw [if_pos rfl, if_neg hne.symm, hfirst]
    rfl

theorem process_nil (h : t.Tracked Q) (hnil : t.agenda = []) (directory : Directory)
    (line : Line) : t.reception.dispatcher.process t.reception.pools directory line = .ok none := by
  have hn : t.reception.dispatcher.next t.reception.pools = none := by
    rw [h.next_eq, hnil]
    rfl
  rw [Dispatcher.process, hn]

/-- Frame after frame is classified until the agenda is empty. -/
theorem drain (h : t.Tracked Q) (directory : Directory) (line : Line) :
    ∃ u Q' rs, t.processUpTo directory line t.agenda.length = .ok u ∧ u.Tracked Q' ∧
      u.agenda = [] ∧ rs.map (·.handle) = t.agenda.map (·.handle) ∧
      Dispatcher.Drains directory line t.reception.dispatcher t.reception.pools rs
        u.reception.dispatcher u.reception.pools := by
  generalize hrs : t.agenda = frames
  induction frames generalizing t Q with
  | nil => exact ⟨t, Q, [], rfl, h, hrs, rfl, .stop (h.process_nil hrs directory line)⟩
  | cons r rest ih =>
    obtain ⟨z, v, Q₁, hz, hhandle, hv, htracked, hdispatcher, hpools, hrest⟩ :=
      h.process_cons hrs directory line
    obtain ⟨u, Q₂, rs, hu, hu', hnil, hhandles, hdrains⟩ := ih htracked hrest
    rw [hdispatcher, hpools] at hdrains
    refine ⟨u, Q₂, z :: rs, ?_, hu', hnil, ?_, .step hz hdrains⟩
    · rw [List.length_cons, Traffic.processUpTo, hv]
      exact hu
    · rw [List.map_cons, List.map_cons, hhandle, hhandles]

end Tracked

variable [Positive depth]

/-- From `t` to `u` all frames that were ahead were classified, with the outcomes `rs`. -/
structure Drained (t u : Traffic clients depth) (directory : Directory) (line : Line)
    (rs : List (Processed clients depth)) : Prop where
  drains : Dispatcher.Drains directory line t.reception.dispatcher t.reception.pools rs
    u.reception.dispatcher u.reception.pools
  answer_eq : t.reception.dispatcher.processAll t.reception.pools directory line =
    .ok (u.reception.dispatcher, u.reception.pools, rs.length)
  handles_eq : rs.map (·.handle) =
    (t.ahead t.reception.dispatcher.policy.first ++
      t.ahead t.reception.dispatcher.policy.second).map (·.handle)
  length_eq : rs.length = (t.ahead .low).length + (t.ahead .high).length
  backlog_eq : ∀ p, t.reception.dispatcher.backlog t.reception.pools p = (t.ahead p).length
  priority_eq : ∀ p, ∀ r ∈ t.ahead p, r.handle.priority = p
  nothing_left : ∀ p, u.ahead p = [] ∧
    u.reception.dispatcher.pending u.reception.pools p = none ∧
    u.reception.dispatcher.backlog u.reception.pools p = 0

/-- All pending frames are classified by one call, in the order of the policy and of the commits. -/
theorem reached_drains (policy : Policy) (low : Pool) (high : Option Pool)
    (hlow : low.Fresh .low) (hhigh : ∀ pool ∈ high, pool.Fresh .high) :
    ∃ pools, PoolPair.create low high = .ok pools ∧
      ∀ t : Traffic clients depth, Reached (begin clients depth policy pools) t →
        ∀ directory line, ∃ u rs, t.step (.processAll directory line) = .ok u ∧
          t.Drained u directory line rs := by
  refine ⟨_, PoolPair.create_fresh hlow hhigh, fun t ht directory line => ?_⟩
  obtain ⟨Q, h⟩ := ht.tracked (.begin policy hlow hhigh)
  obtain ⟨u, Q', rs, hu, hu', hnil, hhandles, hdrains⟩ := h.drain directory line
  have hlength : rs.length = t.agenda.length := by simpa using congrArg List.length hhandles
  have hbound : t.reception.dispatcher.backlog t.reception.pools .low +
      t.reception.dispatcher.backlog t.reception.pools .high = t.agenda.length := by
    rw [h.backlog_eq, h.backlog_eq, t.length_agenda]
  refine ⟨u, rs, ?_, hdrains, ?_, hhandles, hlength.trans t.length_agenda, h.backlog_eq,
    fun p r hr => h.handle_priority hr, fun p => ⟨ahead_of_agenda hnil p, ?_, ?_⟩⟩
  · rw [step, hbound]
    exact hu
  · rw [Dispatcher.processAll, hbound]
    exact hdrains.processUpTo_eq hlength.le
  · rw [hu'.pending_eq, ahead_of_agenda hnil]
    rfl
  · rw [hu'.backlog_eq, ahead_of_agenda hnil, List.length_nil]

/-- The policy was changed, so that the high class goes first. -/
theorem reached_drains_high_first :
    ∃ low high pools, Pool.Fresh low .low ∧ Pool.Fresh high .high ∧
      PoolPair.create low (some high) = .ok pools ∧ ∃ t : Traffic 2 1,
        Reached (begin 2 1 .lowFirst pools) t ∧ ∃ directory u rs,
          t.step (.processAll directory {}) = .ok u ∧ t.Drained u directory {} rs ∧
          t.reception.dispatcher.backlog t.reception.pools .low = 2 ∧
          rs.map (·.handle) = [⟨.high, 0⟩, ⟨.high, 60⟩, ⟨.low, 120⟩, ⟨.low, 0⟩] := by
  let pool (p : Priority) : Pool :=
    { arena := .replicate 220 0, priority := p, roomy := by decide +kernel }
  have hfresh (p : Priority) : (pool p).Fresh p :=
    ⟨.replicate 220 0, by decide +kernel, dif_pos (pool p).roomy⟩
  have hhigh : ∀ q ∈ some (pool .high), Pool.Fresh q .high := by
    rintro _ ⟨⟩
    exact hfresh .high
  let frame (p : Priority) : List Action :=
    [.produce p .reserve, .produce p (.write (.replicate 14 1)), .produce p (.commit {})]
  let nobody : Action := .process (fun _ => none) {}
  let actions : List Action := frame .low ++ frame .low ++ [nobody, nobody] ++ frame .low ++
    frame .high ++ frame .low ++ frame .high ++ [.setPolicy .highFirst]
  have hrun : (perform (fun t a => t.reception.Allows a) step
      (begin 2 1 .lowFirst ⟨pool .low, some (pool .high)⟩) actions).map (fun t =>
        (t.reception.dispatcher.policy, t.reception.dispatcher.backlog t.reception.pools .low,
          (t.ahead .high ++ t.ahead .low).map (·.handle))) =
      some (.highFirst, 2, [⟨.high, 0⟩, ⟨.high, 60⟩, ⟨.low, 120⟩, ⟨.low, 0⟩]) := by
    decide +kernel
  obtain ⟨t, ht, he⟩ := Option.map_eq_some_iff.mp hrun
  simp only [Prod.mk.injEq] at he
  obtain ⟨hpolicy, hbacklog, hhandles⟩ := he
  have hreached : Reached (begin 2 1 .lowFirst ⟨pool .low, some (pool .high)⟩) t :=
    Run.of_perform ht
  have hcreate := PoolPair.create_fresh (hfresh .low) hhigh
  obtain ⟨pools, hp, h⟩ := @reached_drains 2 1 _ .lowFirst (pool .low) (some (pool .high))
    (hfresh .low) hhigh
  obtain rfl := Except.ok.inj (hp.symm.trans hcreate)
  let directory : Directory := fun _ => some ⟨.ofList false [0, 1], 5⟩
  obtain ⟨u, rs, hu, hdrained⟩ := h t hreached directory {}
  refine ⟨_, _, _, hfresh .low, hfresh .high, hcreate, t, hreached, directory, u, rs, hu, hdrained,
    hbacklog, ?_⟩
  rw [hdrained.handles_eq, hpolicy]
  exact hhandles

end Traffic

end EtherBuffer.Ingress
