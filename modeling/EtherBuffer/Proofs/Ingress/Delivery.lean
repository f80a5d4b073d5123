import EtherBuffer.Proofs.Ingress.Parcels

/-! Delivery of received frames. What a client collects is what was delivered to it, in the order of
delivery. -/
namespace EtherBuffer.Ingress.Traffic

open Link

variable {clients depth : ℕ} [Positive depth] {t : Traffic clients depth}
  {Q : Fin clients → List Handle}

structure Faithful (t : Traffic clients depth) : Prop where
  answered : ∀ i, ∃ done waiting, t.delivered i = done ++ waiting ∧
    List.Forall₂ Parcel.Fits done (t.collected i) ∧ waiting.length = (t.client i).queue.size
  genuine : ∀ i, ∀ e ∈ t.delivered i, (t.issued.get e.priority)[e.number]? = some e.record
  ordered : ∀ i, (t.delivered i).Pairwise Parcel.Precedes
  served : ∀ i n, 0 < (t.client i).queue.size → ∃ u answer, t.step (.collect i n) = .ok u ∧
    u.collected i = t.collected i ++ [⟨n, (t.client i).stripsTag, answer⟩]

namespace Tracked

theorem collect_served (h : t.Tracked Q) {i : Fin clients} (n : ℕ) (hi : Q i ≠ []) :
    ∃ u answer, t.collect i n = .ok u ∧
      u.collected i = t.collected i ++ [⟨n, (t.client i).stripsTag, answer⟩] := by
  rcases h.collect_cases i n with ⟨hempty, -⟩ | ⟨k, y, hs', s, j, r, hk, -, he, -⟩
  · exact absurd (hempty i rfl) hi
  · obtain rfl := Fin.ext hk
    exact ⟨_, _, he, (t.handed_collected k k n _ y).trans (if_pos rfl)⟩

theorem faithful (h : t.Tracked Q) : t.Faithful where
  answered i := by
    obtain ⟨done, waiting, hd, hfits, hcarries⟩ := h.traced i
    exact ⟨done, waiting, hd, hfits, hcarries.length_eq.trans (h.size_eq i).symm⟩
  genuine i e he := (h.genuine i e he).2
  ordered := h.ordered
  served i n hpos := by
    rw [h.size_eq] at hpos
    exact h.collect_served n (List.ne_nil_of_length_pos hpos)

end Tracked

/-- In whatever order things are done, no action faults, and the frames that a client collects are those
that were delivered to it. -/
theorem reached_faithful (policy : Policy) (low : Pool) (high : Option Pool)
    (hlow : low.Fresh .low) (hhigh : ∀ pool ∈ high, pool.Fresh .high) :
    ∃ pools, PoolPair.create low high = .ok pools ∧
      ∀ t : Traffic clients depth, Reached (begin clients depth policy pools) t →
        t.Faithful ∧ ∀ a, t.reception.Allows a → ∃ u, t.step a = .ok u := by
  refine ⟨_, PoolPair.create_fresh hlow hhigh, fun t ht => ?_⟩
  obtain ⟨Q, h⟩ := ht.tracked (.begin policy hlow hhigh)
  refine ⟨h.faithful, fun a ha => ?_⟩
  obtain ⟨u, -, hu, -⟩ := h.step ha
  exact ⟨u, hu⟩

/-- The second frame goes around the end of the ring and loses its tag. -/
theorem reached_faithful_tagged :
    ∃ low pools, ∃ t : Traffic 2 2, Pool.Fresh low .low ∧ PoolPair.create low none = .ok pools ∧
      Reached (begin 2 2 .lowFirst pools) t ∧ t.Faithful ∧
      t.issued.low.map (·.handle.position) = [0, 60] ∧ low.capacity = 200 ∧
      t.collected 0 = [⟨20, true, ⟨.replicate 14 1, 0xFFFFFFFE, 3, 5⟩⟩,
        ⟨200, true, ⟨.replicate 12 2 ++ .replicate 104 4, 13, 3, 6⟩⟩] ∧
      t.collected 1 = [⟨8, false, ⟨.replicate 8 1, 0xFFFFFFFE, 3, 5⟩⟩,
        ⟨13, true, ⟨.replicate 12 2 ++ [4], 13, 3, 6⟩⟩] := by
  let low : Pool := { arena := .replicate 200 0, priority := .low, roomy := by decide +kernel }
  have hfresh : low.Fresh .low := ⟨.replicate 200 0, by decide +kernel, dif_pos low.roomy⟩
  have hnone : ∀ pool ∈ none, Pool.Fresh pool .high := by simp
  let everyone (appData : UInt32) : Directory := fun _ => some ⟨.ofList false [0, 1], appData⟩
  let line : Line := { ingressLatency := .replicate 3 7 }
  let tagged : List UInt8 := .replicate 12 2 ++ [0x81, 0, 0, 9] ++ .replicate 104 4
  let actions : List Action := [.produce .low .reserve, .produce .low (.write (.replicate 14 1)),
    .produce .low (.commit { timestamp := 5, line := 3 }), .process (everyone 5) line,
    .configure 0 (.stripTag true), .collect 0 20, .collect 1 8, .produce .low .reserve,
    .produce .low (.write tagged), .produce .low (.commit { timestamp := 20, line := 3 }),
    .process (everyone 6) line, .collect 0 200, .configure 1 (.stripTag true), .collect 1 13]
  have hrun : (perform (fun t a => t.reception.Allows a) step (begin 2 2 .lowFirst ⟨low, none⟩)
      actions).map (fun t =>
        (t.issued.low.map (·.handle.position), low.capacity, t.collected 0, t.collected 1)) =
      some ([0, 60], 200, [⟨20, true, ⟨.replicate 14 1, 0xFFFFFFFE, 3, 5⟩⟩,
        ⟨200, true, ⟨.replicate 12 2 ++ .replicate 104 4, 13, 3, 6⟩⟩],
        [⟨8, false, ⟨.replicate 8 1, 0xFFFFFFFE, 3, 5⟩⟩,
          ⟨13, true, ⟨.replicate 12 2 ++ [4], 13, 3, 6⟩⟩]) := by
    decide +kernel
  obtain ⟨t, ht, he⟩ := Option.map_eq_some_iff.mp hrun
  simp only [Prod.mk.injEq] at he
  obtain ⟨pools, hp, h⟩ := @reached_faithful 2 2 _ .lowFirst low none hfresh hnone
  obtain rfl := Except.ok.inj (hp.symm.trans (PoolPair.create_fresh hfresh hnone))
  have hreached : Reached (begin 2 2 .lowFirst ⟨low, none⟩) t := Run.of_perform ht
  exact ⟨low, _, t, hfresh, hp, hreached, (h t hreached).1, he⟩

end EtherBuffer.Ingress.Traffic
