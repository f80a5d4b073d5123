import EtherBuffer.Proofs.Egress.Timetable

/-! Reports of departure. Clients are told the times for which they asked, each once and in order. -/
namespace EtherBuffer.Egress.Timetable

open Link Transmission

variable {clients depth stamps : ℕ} [Positive depth] {t : Timetable clients depth stamps}

structure Truthful (t : Timetable clients depth stamps) : Prop where
  reports_eq : t.fetched ++ t.transmission.scheduler.departures.toList =
    t.departed.filterMap (Departure.report stamps)
  dropped_eq : t.transmission.scheduler.stampsDropped =
    .ofNat (t.departed.countP (Departure.Missed stamps ·))
  size_eq : t.transmission.scheduler.departures.size = t.unfetched
  departed_eq : t.departed.map (·.parcel) = t.transmission.ledger.completed
  sent_eq : t.sent.map Prod.fst = t.transmission.ledger.accepted
  sent_nodup : (t.sent.map fun m => (m.1.priority, m.1.number)).Nodup
  flagged : ∀ d ∈ t.departed, (d.parcel, d.timed) ∈ t.sent
  /-- Clients are told apart, unless there are too many for a word. -/
  asks_iff : ∀ d ∈ t.departed, d.parcel.client < clients ∧ (d.parcel.client + 1 < 2 ^ 32 →
    (UInt32.ofNat d.parcel.client).toNat = d.parcel.client ∧ (d.Asks ↔ d.timed = true))

theorem Exact.truthful (h : t.Exact) : t.Truthful := by
  obtain ⟨waiting, hwaiting, hreports⟩ := h.told
  refine ⟨?_, h.dropped_eq, ?_, h.departed_eq, h.sent_eq, h.sent_nodup, h.flagged, ?_⟩
  · rw [hwaiting.toList_eq, ← hreports, reports]
  · rw [hwaiting.size_eq, unfetched, hreports, List.length_append, Nat.add_sub_cancel_left]
  · intro d hd
    have hacc : d.parcel ∈ t.transmission.ledger.accepted := by
      rw [← h.sent_eq]
      exact List.mem_map.mpr ⟨_, h.flagged d hd, rfl⟩
    refine ⟨h.balanced.client_lt _ hacc, fun hlt => ⟨?_, ?_⟩⟩
    · rw [UInt32.toNat_ofNat', Nat.mod_eq_of_lt (by omega)]
    · refine and_iff_left fun hzero => ?_
      have hnat := congrArg UInt32.toNat hzero
      rw [← UInt32.ofNat_one, ← UInt32.ofNat_add, UInt32.toNat_ofNat', Nat.mod_eq_of_lt hlt] at hnat
      cases hnat

/-- However frames are sent and completed, nothing faults, and the times that are fetched are those of
the frames that left and asked for them. -/
theorem reached_truthful (low high : Pool) (hlow : low.Fresh .low) (hhigh : high.Fresh .high)
    (ht : Reached (begin low high) t) : t.Truthful ∧ ∀ a : Action, a.Fits → ∃ u, t.step a = .ok u := by
  have h := ht.exact hlow hhigh
  refine ⟨h.truthful, fun a ha => ?_⟩
  obtain ⟨u, hu, -⟩ := h.step ha
  exact ⟨u, hu⟩

/-- There is room for one time, and the speed of the line changes. -/
theorem reached_truthful_full :
    ∃ low high, ∃ t : Timetable 2 2 1, Pool.Fresh low .low ∧ Pool.Fresh high .high ∧
      Reached (begin low high) t ∧ t.Truthful ∧
      t.departed.map (fun d => (d.parcel.client, d.timed, d.time)) =
        [(0, true, 3), (0, false, 15), (1, true, 20), (1, true, 23)] ∧
      t.fetched = [⟨0, 3⟩] ∧ t.transmission.scheduler.departures.toList = [⟨1, 23⟩] ∧
      t.transmission.scheduler.stampsDropped = 1 := by
  let pool (p : Priority) : Pool :=
    { arena := .replicate 200 0, priority := p, roomy := by decide +kernel }
  have hfresh (p : Priority) : (pool p).Fresh p :=
    ⟨.replicate 200 0, by decide +kernel, dif_pos (pool p).roomy⟩
  let line : Line := { egressLatency := ⟨#[7, 5, 3], rfl⟩ }
  let actions : List Action := [.send .low 1 [1] true 0, .send .low 0 [2] false 0,
    .send .high 0 [3] true 0, .select line 0, .complete 0xFFFFFFFE 0 line, .select line 0,
    .complete 10 0 line, .select line 0, .complete 15 0 line, .takeDeparture, .takeDeparture,
    .send .low 1 [4] true 0, .select line 0, .complete 20 0 { line with speed := .mbps1000 }]
  let start : Timetable 2 2 1 := begin (pool .low) (pool .high)
  have hrun : (perform (fun _ a => a.Fits) step start actions).map (fun t =>
      (t.departed.map (fun d => (d.parcel.client, d.timed, d.time)), t.fetched,
        t.transmission.scheduler.departures.toList, t.transmission.scheduler.stampsDropped)) =
      some ([(0, true, 3), (0, false, 15), (1, true, 20), (1, true, 23)], [⟨0, 3⟩], [⟨1, 23⟩], 1) := by
    decide +kernel
  obtain ⟨t, ht, he⟩ := Option.map_eq_some_iff.mp hrun
  simp only [Prod.mk.injEq] at he
  have hreached : Reached start t := Run.of_perform ht
  exact ⟨_, _, t, hfresh .low, hfresh .high, hreached,
    (reached_truthful _ _ (hfresh .low) (hfresh .high) hreached).1, he⟩

end EtherBuffer.Egress.Timetable
