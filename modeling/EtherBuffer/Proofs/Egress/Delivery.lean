import EtherBuffer.Proofs.Egress.Balance
import EtherBuffer.Proofs.Pool.Layout

/-! Delivery of accepted frames, each of which is in one record and one queue until it is completed. -/
namespace EtherBuffer.Egress

theorem Ledger.Consistent.exists_parcel {l : Ledger} (h : l.Consistent) {p : Priority} {n : ℕ}
    {r : Receipt} (hr : (l.receipts.get p)[n]? = some r) :
    ∃ e ∈ l.accepted, e.priority = p ∧ e.number = n := by
  have hmem : n ∈ List.range (l.receipts.get p).length :=
    List.mem_range.mpr (List.getElem?_eq_some_iff.mp hr).1
  rw [← h.numbers p] at hmem
  obtain ⟨e, he, rfl⟩ := List.mem_map.mp hmem
  obtain ⟨hacc, hp⟩ := List.mem_filter.mp he
  exact ⟨e, hacc, of_decide_eq_true hp, rfl⟩

namespace Transmission

open Link

variable {clients depth stamps : ℕ} [Positive depth] {x : Transmission clients depth stamps}
  {p p' : Priority} {client client' : ℕ} {e e' : Parcel}

structure Accounted (x : Transmission clients depth stamps) : Prop where
  orderly : ∀ p, (x.session p).Orderly
  state_eq : ∀ p, ∀ r ∈ (x.session p).ring, (x.pools.get p).stateAt r.handle.position = .ok r.state
  queued_once : ∀ p, ∀ r ∈ x.ledger.receipts.get p, r.releases = 0 →
    ∃ i : Fin clients, ∀ p' j,
      (x.queue p' j).slots.toList.count (some r.handle) = if p' = p ∧ j = i then 1 else 0
  names_live : ∀ p i h, some h ∈ (x.queue p i).slots.toList →
    ∃ r ∈ x.ledger.receipts.get p, r.handle = h ∧ r.releases = 0
  consistent : x.ledger.Consistent
  once : (x.ledger.completed.map fun e => (e.priority, e.number)).Nodup
  idle : (∀ p i, (x.queue p i).isEmpty) → ∀ p,
    (x.pools.get p).live = 0 ∧ (x.pools.get p).freeSpace = (x.pools.get p).capacity

namespace Balanced

theorem eq_of_handle (h : x.Balanced) (he : e ∈ x.ledger.waiting p client)
    (he' : e' ∈ x.ledger.waiting p' client') (hhandle : e'.handle = e.handle) : e' = e := by
  have hprio := h.priority_of_waiting he
  rw [← hhandle, h.priority_of_waiting he'] at hprio
  subst hprio
  obtain ⟨hacc, -, hp, -⟩ := h.consistent.mem_waiting.mp he
  obtain ⟨hacc', -, hp', -⟩ := h.consistent.mem_waiting.mp he'
  obtain ⟨r, hr, hlive, hr₁, -⟩ := h.consistent.record he
  obtain ⟨r', hr', hlive', hr₁', -⟩ := h.consistent.record he'
  obtain ⟨base, gone, held, hs⟩ := h.kept p'
  have hn := hs.numberOf_eq hr hlive
  have hn' := hs.numberOf_eq hr' hlive'
  rw [hr₁] at hn
  rw [hr₁', hhandle] at hn'
  exact h.consistent.eq_of_number hacc hacc' (hp'.trans hp.symm) (hn'.symm.trans hn)

theorem exists_waiting (h : x.Balanced) {r : Receipt} (hr : r ∈ x.ledger.receipts.get p)
    (hlive : r.releases = 0) :
    ∃ i : Fin clients, ∃ e ∈ x.ledger.waiting p i, e.client = i ∧ e.handle = r.handle := by
  obtain ⟨n, hn⟩ := List.mem_iff_getElem?.mp hr
  obtain ⟨e, hacc, rfl, rfl⟩ := h.consistent.exists_parcel hn
  obtain ⟨r', hr', hhandle, -, hiff⟩ := h.consistent.recorded e hacc
  obtain rfl := Option.some.inj (hn.symm.trans hr')
  exact ⟨⟨e.client, h.client_lt e hacc⟩, e,
    h.consistent.mem_waiting.mpr ⟨hacc, hiff.mp hlive, rfl, rfl⟩, rfl, hhandle.symm⟩

theorem queued_once (h : x.Balanced) {r : Receipt} (hr : r ∈ x.ledger.receipts.get p)
    (hlive : r.releases = 0) : ∃ i : Fin clients, ∀ p' j,
      (x.queue p' j).slots.toList.count (some r.handle) = if p' = p ∧ j = i then 1 else 0 := by
  obtain ⟨i, e, he, hc, hhandle⟩ := h.exists_waiting hr hlive
  refine ⟨i, fun p' j => ?_⟩
  rw [(h.queued p' j).count_solid, ← hhandle]
  split_ifs with hself
  · obtain ⟨rfl, rfl⟩ := hself
    refine List.count_eq_one_of_mem ?_ (List.mem_map_of_mem he)
    refine List.Nodup.map_on (fun a ha b hb hab => h.eq_of_handle hb ha hab) ?_
    exact (List.drop_sublist _ _).nodup (h.consistent.accepted_nodup p' j)
  · refine List.count_eq_zero_of_not_mem fun hmem => hself ?_
    obtain ⟨e', he', heq⟩ := List.mem_map.mp hmem
    obtain rfl := h.eq_of_handle he he' heq
    obtain ⟨-, -, hp, -⟩ := h.consistent.mem_waiting.mp he
    obtain ⟨-, -, hp', hc'⟩ := h.consistent.mem_waiting.mp he'
    exact ⟨hp'.symm.trans hp, Fin.ext (hc'.symm.trans hc)⟩

theorem accounted (h : x.Balanced) : x.Accounted where
  orderly p := (h.kept p).orderly
  state_eq p r hr := (h.kept p).stateAt_eq hr
  queued_once p r hr hlive := h.queued_once hr hlive
  names_live p i hd hmem := by
    obtain ⟨e, he, rfl⟩ := List.mem_map.mp ((h.queued p i).mem_solid.mp hmem)
    obtain ⟨r, hr, hlive, hhandle, -⟩ := h.consistent.record he
    exact ⟨r, List.mem_of_getElem? hr, hhandle, hlive⟩
  consistent := h.consistent
  once := h.consistent.completed_nodup
  idle hempty p := by
    refine (h.kept p).free_of_released fun r hr hlive => ?_
    obtain ⟨i, e, he, -⟩ := h.exists_waiting hr hlive
    have hnil := (h.queued p i).eq_nil_of_isEmpty (hempty p i)
    rw [List.map_eq_nil_iff, List.map_eq_nil_iff] at hnil
    rw [hnil] at he
    cases he

end Balanced

/-- Nothing faults, each record that was not released is in one queue, and the frames of a client and
class leave in their order. -/
theorem reached_accounted (low high : Pool) (hlow : low.Fresh .low) (hhigh : high.Fresh .high)
    (x : Transmission clients depth stamps) (hx : Reached (begin low high) x) :
    x.Accounted ∧ ∀ a : Action, a.Fits → ∃ y, x.step a = .ok y := by
  have h := hx.balanced hlow hhigh
  refine ⟨h.accounted, fun a ha => ?_⟩
  obtain ⟨y, hy, -⟩ := h.step ha
  exact ⟨y, hy⟩

/-- Two clients take turns in the low class while the high class goes first. A frame is refused by the
full ring. -/
theorem reached_accounted_turns :
    ∃ low high, ∃ x : Transmission 2 2 1, Pool.Fresh low .low ∧ Pool.Fresh high .high ∧
      Reached (begin low high) x ∧
      x.ledger.completed.map (fun e => (e.priority, e.client, e.payload)) =
        [(.high, 1, [5]), (.low, 0, [1, 2]), (.low, 1, [3]), (.low, 0, [4]), (.low, 1, [7])] ∧
      ∀ p, (x.pools.get p).live = 0 ∧ (x.pools.get p).freeSpace = (x.pools.get p).capacity := by
  let pool (p : Priority) : Pool :=
    { arena := .replicate 200 0, priority := p, roomy := by decide +kernel }
  have hfresh (p : Priority) : (pool p).Fresh p :=
    ⟨.replicate 200 0, by decide +kernel, dif_pos (pool p).roomy⟩
  let send (p : Priority) (client : ℕ) (frame : List UInt8) : Action := .send p client frame true 9
  let actions : List Action := [send .low 0 [1, 2], send .low 1 [3], send .low 0 [4],
    send .high 1 [5], send .low 1 [6], .select {} 0, .complete 0 0 {}, .select {} 0, .complete 0 0 {},
    .resetShaper 4, .select {} 0, .complete 0 0 {}, .select {} 0, send .low 1 [7], .complete 0 0 {},
    .takeDeparture, .select {} 0, .complete 0 0 {}]
  let start : Transmission 2 2 1 := begin (pool .low) (pool .high)
  have hrun : (perform (fun _ a => a.Fits) step start actions).map (fun x =>
      (x.ledger.completed.map (fun e => (e.priority, e.client, e.payload)),
        [Priority.low, .high].all fun p => decide (∀ i, (x.queue p i).isEmpty))) =
      some ([(.high, 1, [5]), (.low, 0, [1, 2]), (.low, 1, [3]), (.low, 0, [4]), (.low, 1, [7])],
        true) := by
    decide +kernel
  obtain ⟨x, hx, he⟩ := Option.map_eq_some_iff.mp hrun
  obtain ⟨hcompleted, hempty⟩ := Prod.mk.inj he
  have hreached : Reached start x := Run.of_perform hx
  have h := reached_accounted _ _ (hfresh .low) (hfresh .high) x hreached
  have hidle (p : Priority) (i : Fin 2) : (x.queue p i).isEmpty = true :=
    of_decide_eq_true (List.all_eq_true.mp hempty p (by cases p <;> simp)) i
  exact ⟨_, _, x, hfresh .low, hfresh .high, hreached, hcompleted, h.1.idle hidle⟩

end Transmission

end EtherBuffer.Egress
