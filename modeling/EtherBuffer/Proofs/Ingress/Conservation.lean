import EtherBuffer.Proofs.Ingress.Steps

/-! Conservation of received frames, from the commit of a record to its one release. -/
namespace EtherBuffer

namespace Ingress.Reception

open Link

variable {clients depth : ℕ}

/-- How many records of a session the cursor of its class has passed. -/
def passed (x : Reception clients depth) (p : Priority) (s : Session) : ℕ :=
  s.receipts.length - s.pool.pending (x.dispatcher.cursors.get p)

/-- The queues account for the records that were passed and not released, each for all clients that have
still to collect it. -/
structure Conserves (x : Reception clients depth) : Prop where
  state_eq : ∀ p, ∀ s ∈ x.session p, ∀ r ∈ s.ring,
    s.pool.stateAt r.handle.position = .ok r.state
  live_mem : ∀ p, ∀ s ∈ x.session p, ∀ r ∈ s.receipts, r.releases = 0 → r ∈ s.ring
  shared : ∀ p, ∀ s ∈ x.session p, ∀ j, ∀ r ∈ s.receipts[j]?, r.releases = 0 → j < x.passed p s →
    ∃ header, s.pool.header r.handle = .ok header ∧
      (x.dispatcher.holders r.handle).card = header.sharers.toNat + 1
  ahead : ∀ p, ∀ s ∈ x.session p, ∀ j, ∀ r ∈ s.receipts[j]?, x.passed p s ≤ j →
    r.releases = 0 ∧ x.dispatcher.holders r.handle = ∅
  once : ∀ i h, (x.dispatcher.clients.get i).queue.slots.toList.count (some h) ≤ 1
  /-- A handle in a queue stands for the last record that was committed under it. -/
  named : ∀ i h, some h ∈ (x.dispatcher.clients.get i).queue.slots.toList →
    ∃ s ∈ x.session h.priority, s.pool.stateAt h.position = .ok .live ∧
      ∃ j, ∃ r ∈ s.receipts[j]?, r.handle = h ∧ r.releases = 0 ∧ j < x.passed h.priority s ∧
        ∀ k, j < k → ∀ t ∈ s.receipts[k]?, t.handle ≠ h
  releases_le : ∀ p, ∀ s ∈ x.session p, ∀ r ∈ s.receipts, r.releases ≤ 1
  drained : x.dispatcher.next x.pools = none →
    (∀ i, (x.dispatcher.clients.get i).queue.isEmpty = true) → ∀ p, ∀ s ∈ x.session p,
      (∀ r ∈ s.receipts, r.releases = 1) ∧ s.pool.live = 0 ∧ s.pool.freeSpace = s.pool.capacity

variable [Positive depth]

namespace Balanced

variable {x : Reception clients depth} {Q : Fin clients → List Handle} {n : PerPriority ℕ}
  {p : Priority} {s : Session}

theorem passed_eq (h : x.Balanced Q n) (hs : x.session p = some s) : x.passed p s = n.get p := by
  have hf := h.follows p s hs
  have hle := hf.le_length
  rw [passed, hf.pending_eq]
  omega

theorem lt_passed (h : x.Balanced Q n) {j : ℕ} {r : Receipt} (hr : x.Has p j r)
    {i : Fin clients} (hi : r.handle ∈ Q i) : j < n.get p := by
  by_contra hge
  have hzero := h.shared p j r hr
  rw [if_neg hge, waiting_eq_zero_iff] at hzero
  exact hzero i hi

theorem all_released (h : x.Balanced Q n) (hnext : x.dispatcher.next x.pools = none)
    (hempty : ∀ i, Q i = []) (hs : x.session p = some s) : ∀ r ∈ s.receipts, r.releases ≠ 0 := by
  have hpending := Dispatcher.next_eq_none hnext p
  rw [h.pending_eq, hs, Option.bind_some, Option.map_eq_none_iff, List.getElem?_eq_none_iff]
    at hpending
  intro r hr hz
  obtain ⟨j, hj, rfl⟩ := List.mem_iff_getElem.mp hr
  have hshare := h.shared p j _ ⟨s, hs, List.getElem?_eq_getElem hj, hz⟩
  have hzero : waiting Q s.receipts[j].handle = 0 := by
    rw [waiting_eq_zero_iff]
    intro i
    rw [hempty i]
    exact List.not_mem_nil
  rw [if_pos (by omega), hzero] at hshare
  omega

theorem conserves (h : x.Balanced Q n) : x.Conserves where
  state_eq := by
    intro p s hs r hr
    exact (h.follows p s hs).kept.stateAt_eq hr
  live_mem := by
    intro p s hs
    exact (h.follows p s hs).kept.orderly.live_mem
  shared := by
    intro p s hs j r hj hr hlt
    obtain ⟨base, gone, held, hsound⟩ := (h.follows p s hs).kept
    rw [h.passed_eq hs] at hlt
    refine ⟨r.header, hsound.header_eq hj hr, ?_⟩
    rw [h.awaiting.card_holders, h.shared p j r ⟨s, hs, hj, hr⟩, if_pos hlt]
  ahead := by
    intro p s hs j r hj hle
    rw [h.passed_eq hs] at hle
    refine ⟨(h.follows p s hs).ahead j hle r hj, ?_⟩
    rw [← Finset.card_eq_zero, h.awaiting.card_holders]
    exact h.waiting_eq_zero hs hj hle
  once := by
    intro i y
    rw [(h.awaiting i).count_eq]
    exact List.nodup_iff_count_le_one.mp (h.nodup i) y
  named := by
    intro i y hy
    rw [(h.awaiting i).mem_iff] at hy
    obtain ⟨j, r, ⟨s, hs, hj, hr⟩, rfl⟩ := h.known i y hy
    obtain ⟨base, gone, held, hsound⟩ := (h.follows _ s hs).kept
    refine ⟨s, hs, hsound.stateAt_eq hj hr, j, r, hj, rfl, hr, ?_, ?_⟩
    · rw [h.passed_eq hs]
      exact h.lt_passed ⟨s, hs, hj, hr⟩ hy
    · exact fun k hk t ht => hsound.handle_ne hj hr hk ht
  releases_le := by
    intro p s hs
    obtain ⟨base, gone, held, hsound⟩ := (h.follows p s hs).kept
    exact hsound.releases_le
  drained := by
    intro hnext hempty p s hs
    have hnil (i : Fin clients) : Q i = [] :=
      List.map_eq_nil_iff.mp ((h.awaiting i).eq_nil_of_isEmpty (hempty i))
    have hrel := h.all_released hnext hnil hs
    have hkept := (h.follows p s hs).kept
    obtain ⟨base, gone, held, hsound⟩ := hkept
    refine ⟨fun r hr => ?_, Session.Kept.free_of_released (h.follows p s hs).kept hrel⟩
    have h₁ := hsound.releases_le r hr
    have h₂ := hrel r hr
    omega

theorem fresh (policy : Policy) {pools : PoolPair} (hlow : pools.low.Fresh .low)
    (hhigh : ∀ pool ∈ pools.high, pool.Fresh .high) :
    Balanced (⟨.empty clients depth policy, pools, .both none, .both []⟩ : Reception clients depth)
      (fun _ => []) (.both 0) := by
  have hfresh (p : Priority) : ∀ pool ∈ pools.get p, pool.Fresh p := by
    intro pool hpool
    cases p with
    | low =>
      obtain rfl := Option.some.inj hpool
      exact hlow
    | high => exact hhigh pool hpool
  let x : Reception clients depth := ⟨.empty clients depth policy, pools, .both none, .both []⟩
  have hsession (p : Priority) : ∀ s ∈ x.session p, ∃ pool, pool.Fresh p ∧ s = ⟨pool, none, []⟩ := by
    intro s hs
    obtain ⟨pool, hpool, rfl⟩ := Option.map_eq_some_iff.mp hs
    exact ⟨pool, hfresh p pool hpool, by cases p <;> rfl⟩
  have hnone {p : Priority} {j : ℕ} {r : Receipt} : ¬ x.Has p j r := by
    rintro ⟨s, hs, hj, -⟩
    obtain ⟨pool, -, rfl⟩ := hsession p s hs
    simp at hj
  refine ⟨Dispatcher.Awaiting.empty policy, fun _ => List.nodup_nil, ?_, ?_, ?_, by simp⟩
  · intro p s hs
    obtain ⟨pool, hpool, rfl⟩ := hsession p s hs
    exact hpool.priority_eq
  · intro p s hs
    obtain ⟨pool, hpool, rfl⟩ := hsession p s hs
    have := Session.Follows.fresh hpool
    cases p <;> exact this
  · intro p j r hr
    exact absurd hr hnone

end Balanced

/-- In whatever order things are done, no action faults, and the queues account for every record until
its one release. -/
theorem reached_conserves (policy : Policy) (low : Pool) (high : Option Pool)
    (hlow : low.Fresh .low) (hhigh : ∀ pool ∈ high, pool.Fresh .high) :
    ∃ pools, PoolPair.create low high = .ok pools ∧
      ∀ x : Reception clients depth,
        Reached ⟨.empty clients depth policy, pools, .both none, .both []⟩ x →
          x.Conserves ∧ ∀ a, x.Allows a → ∃ y, x.step a = .ok y := by
  have hpair : PoolPair.create low high = .ok ⟨low, high⟩ :=
    if_pos ⟨hlow.priority_eq, fun pool hpool => (hhigh pool hpool).priority_eq⟩
  refine ⟨_, hpair, fun x hx => ?_⟩
  obtain ⟨Q, n, hb⟩ := (Balanced.fresh policy hlow hhigh).reached hx
  refine ⟨hb.conserves, fun a ha => ?_⟩
  obtain ⟨y, -, -, hy, -⟩ := hb.step ha
  exact ⟨y, hy⟩

/-- Two frames for two clients, one of whom has collected the first, and a third one for nobody. -/
theorem reached_conserves_shared :
    ∃ low high pools, Pool.Fresh low .low ∧ Pool.Fresh high .high ∧
      PoolPair.create low (some high) = .ok pools ∧ ∃ x : Reception 2 4,
        Reached ⟨.empty 2 4 .lowFirst, pools, .both none, .both []⟩ x ∧ x.Conserves ∧
        x.receipts.low.map (fun r => (r.releases, r.header.sharers)) = [(0, 0), (1, 0)] ∧
        x.receipts.high.map (fun r => (r.releases, r.header.sharers)) = [(0, 1)] ∧
        x.pools.low.live = 2 := by
  let arena : Array UInt8 := .replicate 200 0
  have hroom : Record.minUsage ≤ Record.wholeWords arena.size := by decide +kernel
  have hsize : arena.size < 2 ^ 32 := by decide +kernel
  have create (p : Priority) : Pool.create arena p = .ok { arena, priority := p, roomy := hroom } :=
    dif_pos hroom
  have hlow : Pool.Fresh _ .low := ⟨arena, hsize, create .low⟩
  have hhigh : Pool.Fresh _ .high := ⟨arena, hsize, create .high⟩
  obtain ⟨pools, hp, h⟩ := @reached_conserves 2 4 _ .lowFirst _ (some _) hlow
    (by rintro _ ⟨⟩; exact hhigh)
  let everyone : Directory := fun _ => some ⟨.ofList false [0, 1], 5⟩
  let actions : List Action := [.produce .low .reserve, .produce .low (.write (.replicate 14 1)),
    .produce .low (.commit {}), .produce .high .reserve, .produce .high (.write (.replicate 14 2)),
    .produce .high (.commit {}), .processAll everyone {}, .collect 0 20, .produce .low .reserve,
    .produce .low (.write (.replicate 14 3)), .produce .low (.commit {}), .process (fun _ => none) {}]
  have hrun : ((Pool.create arena .low).toOption.bind fun low =>
      (Pool.create arena .high).toOption.bind fun high =>
      (PoolPair.create low (some high)).toOption.bind fun pools =>
      ((Reception.mk (.empty 2 4 .lowFirst) pools (.both none) (.both [])).run actions).map fun x =>
        (x.receipts.low.map fun r => (r.releases, r.header.sharers),
          x.receipts.high.map fun r => (r.releases, r.header.sharers), x.pools.low.live)) =
      some ([(0, 0), (1, 0)], [(0, 1)], 2) := by
    decide +kernel
  simp only [create, Except.toOption, Option.bind_some, hp] at hrun
  obtain ⟨x, hx, he⟩ := Option.map_eq_some_iff.mp hrun
  simp only [Prod.mk.injEq] at he
  have hreach := reached_of_run hx
  exact ⟨_, _, pools, hlow, hhigh, hp, x, hreach, (h x hreach).1, he⟩

end Ingress.Reception

end EtherBuffer
