import EtherBuffer.Egress.Scheduler
import EtherBuffer.Proofs.Pool.Session
import Mathlib.Data.List.Nodup

/-! The books of the transmit side: the receipts of all records, and the frames that were accepted and
completed. -/
namespace EtherBuffer.Egress

/-- A frame of a client and the record that it is in. -/
@[ext]
structure Parcel where
  priority : Priority
  client : ℕ
  number : ℕ
  handle : Handle
  payload : List UInt8
  deriving DecidableEq

namespace Parcel

def ofClient (p : Priority) (client : ℕ) (parcels : List Parcel) : List Parcel :=
  parcels.filter fun e => e.priority = p ∧ e.client = client

variable {p : Priority} {client : ℕ} {parcels : List Parcel} {e : Parcel}

theorem mem_ofClient :
    e ∈ ofClient p client parcels ↔ e ∈ parcels ∧ e.priority = p ∧ e.client = client := by
  rw [ofClient, List.mem_filter, decide_eq_true_iff]

theorem ofClient_append_self (hp : e.priority = p) (hc : e.client = client) :
    ofClient p client (parcels ++ [e]) = ofClient p client parcels ++ [e] := by
  rw [ofClient, List.filter_append, List.filter_cons_of_pos (by simp [hp, hc]), List.filter_nil]
  rfl

theorem ofClient_append_other (h : ¬ (e.priority = p ∧ e.client = client)) :
    ofClient p client (parcels ++ [e]) = ofClient p client parcels := by
  rw [ofClient, List.filter_append, List.filter_cons_of_neg (by simpa using h), List.filter_nil,
    List.append_nil]
  rfl

theorem nodup_of_ofClient (h : ∀ p client, (ofClient p client parcels).Nodup) : parcels.Nodup := by
  rw [List.nodup_iff_count_le_one]
  intro e
  have hcount : (ofClient e.priority e.client parcels).count e = parcels.count e :=
    List.count_filter (by simp)
  rw [← hcount]
  exact List.nodup_iff_count_le_one.mp (h _ _) e

end Parcel

structure Ledger where
  receipts : PerPriority (List Receipt) := .both []
  accepted : List Parcel := []
  completed : List Parcel := []

namespace Ledger

def waiting (l : Ledger) (p : Priority) (client : ℕ) : List Parcel :=
  (Parcel.ofClient p client l.accepted).drop (Parcel.ofClient p client l.completed).length

def next (l : Ledger) (p : Priority) (client : ℕ) (frame : List UInt8) (h : Handle) : Parcel :=
  ⟨p, client, (l.receipts.get p).length, h, frame⟩

def accept (l : Ledger) (p : Priority) (client : ℕ) (frame : List UInt8) (header : Header)
    (h : Handle) : Ledger :=
  { l with
    receipts := l.receipts.set p (l.receipts.get p ++ [Session.issue h frame header])
    accepted := l.accepted ++ [l.next p client frame h] }

def complete (l : Ledger) (e : Parcel) (time : UInt32) : Ledger :=
  { l with
    receipts := l.receipts.set e.priority
      ((l.receipts.get e.priority).modify e.number (Receipt.departed time))
    completed := l.completed ++ [e] }

def parcel (l : Ledger) (client : ℕ) (h : Handle) (payload : List UInt8) : Parcel :=
  ⟨h.priority, client, Receipt.numberOf h (l.receipts.get h.priority), h, payload⟩

/-- Every record was made for one parcel and is released when this is completed. -/
structure Consistent (l : Ledger) : Prop where
  order : ∀ p client, Parcel.ofClient p client l.completed <+: Parcel.ofClient p client l.accepted
  numbers : ∀ p, (l.accepted.filter (·.priority = p)).map (·.number) =
    List.range (l.receipts.get p).length
  recorded : ∀ e ∈ l.accepted, ∃ r, (l.receipts.get e.priority)[e.number]? = some r ∧
    r.handle = e.handle ∧ r.payload = e.payload ∧ (r.releases = 0 ↔ e ∉ l.completed)

variable {l : Ledger} {p : Priority} {client : ℕ} {e e' : Parcel} {rest : List Parcel}

theorem waiting_complete (hw : l.waiting p client = e :: rest) (hp : e.priority = p)
    (hc : e.client = client) (time : UInt32) (p' : Priority) (client' : ℕ) :
    (l.complete e time).waiting p' client' =
      if p = p' ∧ client = client' then rest else l.waiting p' client' := by
  change (Parcel.ofClient p' client' l.accepted).drop
    (Parcel.ofClient p' client' (l.completed ++ [e])).length = _
  split_ifs with hself
  · obtain ⟨rfl, rfl⟩ := hself
    rw [Parcel.ofClient_append_self hp hc, List.length_append, List.length_singleton,
      ← List.tail_drop]
    exact congrArg List.tail hw
  · rw [Parcel.ofClient_append_other (by rwa [hp, hc])]
    rfl

theorem getElem?_accept_of_lt (l : Ledger) (p : Priority) (client : ℕ) (frame : List UInt8)
    (header : Header) (h : Handle) {q : Priority} {n : ℕ} (hn : n < (l.receipts.get q).length) :
    ((l.accept p client frame header h).receipts.get q)[n]? = (l.receipts.get q)[n]? := by
  change ((l.receipts.set p _).get q)[n]? = _
  by_cases hp : p = q
  · subst hp
    rw [PerPriority.get_set, List.getElem?_append_left hn]
  · rw [PerPriority.get_set_of_ne _ _ hp]

theorem getElem?_accept_next (l : Ledger) (p : Priority) (client : ℕ) (frame : List UInt8)
    (header : Header) (h : Handle) :
    ((l.accept p client frame header h).receipts.get p)[(l.next p client frame h).number]? =
      some (Session.issue h frame header) := by
  change ((l.receipts.set p _).get p)[(l.receipts.get p).length]? = _
  rw [PerPriority.get_set, List.getElem?_concat_length]

theorem getElem?_complete (l : Ledger) (e : Parcel) (time : UInt32) (q : Priority) (n : ℕ) :
    ((l.complete e time).receipts.get q)[n]? = (l.receipts.get q)[n]?.map fun r =>
      if e.priority = q ∧ e.number = n then r.departed time else r := by
  change ((l.receipts.set e.priority _).get q)[n]? = _
  by_cases hp : e.priority = q
  · subst hp
    rw [PerPriority.get_set, List.getElem?_modify]
    simp only [true_and]
    rfl
  · rw [PerPriority.get_set_of_ne _ _ hp]
    simp [hp]

namespace Consistent

theorem empty : Consistent {} where
  order _ _ := List.prefix_rfl
  numbers p := by rw [PerPriority.get_both]; rfl
  recorded e he := absurd he List.not_mem_nil

theorem accepted_eq (h : l.Consistent) (p : Priority) (client : ℕ) :
    Parcel.ofClient p client l.accepted =
      Parcel.ofClient p client l.completed ++ l.waiting p client := by
  obtain ⟨rest, hrest⟩ := h.order p client
  rw [waiting, ← hrest, List.drop_left]

theorem eq_of_number (h : l.Consistent) (he : e ∈ l.accepted) (he' : e' ∈ l.accepted)
    (hp : e'.priority = e.priority) (hn : e'.number = e.number) : e' = e := by
  have hnd := (h.numbers e.priority).symm ▸ List.nodup_range
  exact List.inj_on_of_nodup_map hnd (List.mem_filter.mpr ⟨he', by simpa using hp⟩)
    (List.mem_filter.mpr ⟨he, by simp⟩) hn

theorem accepted_nodup (h : l.Consistent) (p : Priority) (client : ℕ) :
    (Parcel.ofClient p client l.accepted).Nodup := by
  have hnd := (h.numbers p).symm ▸ List.nodup_range
  refine (List.Nodup.of_map _ hnd).sublist ?_
  refine List.monotone_filter_right _ fun e he => ?_
  simp only [decide_eq_true_eq] at he ⊢
  exact he.1

theorem mem_accepted (h : l.Consistent) (he : e ∈ l.completed) : e ∈ l.accepted := by
  have hmem := (h.order e.priority e.client).subset (Parcel.mem_ofClient.mpr ⟨he, rfl, rfl⟩)
  exact (Parcel.mem_ofClient.mp hmem).1

theorem mem_waiting (h : l.Consistent) : e ∈ l.waiting p client ↔
    e ∈ l.accepted ∧ e ∉ l.completed ∧ e.priority = p ∧ e.client = client := by
  have heq := h.accepted_eq p client
  have hnd := h.accepted_nodup p client
  rw [heq] at hnd
  have hmem : e ∈ Parcel.ofClient p client l.accepted ↔
      e ∈ Parcel.ofClient p client l.completed ∨ e ∈ l.waiting p client := by
    rw [heq, List.mem_append]
  rw [Parcel.mem_ofClient, Parcel.mem_ofClient] at hmem
  constructor
  · intro he
    obtain ⟨hacc, hp, hc⟩ := hmem.mpr (.inr he)
    refine ⟨hacc, fun hdone => ?_, hp, hc⟩
    exact List.disjoint_of_nodup_append hnd (Parcel.mem_ofClient.mpr ⟨hdone, hp, hc⟩) he
  · intro ⟨hacc, hdone, hp, hc⟩
    exact (hmem.mp ⟨hacc, hp, hc⟩).resolve_left fun hin => hdone hin.1

theorem record (h : l.Consistent) (he : e ∈ l.waiting p client) :
    ∃ r, (l.receipts.get p)[e.number]? = some r ∧ r.releases = 0 ∧ r.handle = e.handle ∧
      r.payload = e.payload := by
  obtain ⟨hacc, hdone, rfl, -⟩ := h.mem_waiting.mp he
  obtain ⟨r, hr, hhandle, hpay, hlive⟩ := h.recorded e hacc
  exact ⟨r, hr, hlive.mpr hdone, hhandle, hpay⟩

theorem number_lt (h : l.Consistent) (he : e ∈ l.accepted) :
    e.number < (l.receipts.get e.priority).length := by
  obtain ⟨r, hr, -⟩ := h.recorded e he
  exact (List.getElem?_eq_some_iff.mp hr).1

theorem waiting_accept (h : l.Consistent) (p : Priority) (client : ℕ) (frame : List UInt8)
    (header : Header) (hd : Handle) (p' : Priority) (client' : ℕ) :
    (l.accept p client frame header hd).waiting p' client' =
      l.waiting p' client' ++
        if p = p' ∧ client = client' then [l.next p client frame hd] else [] := by
  have hle := (h.order p' client').length_le
  change (Parcel.ofClient p' client' (l.accepted ++ [l.next p client frame hd])).drop _ = _
  split_ifs with hself
  · rw [Parcel.ofClient_append_self hself.1 hself.2]
    exact List.drop_append_of_le_length hle
  · rw [Parcel.ofClient_append_other hself, List.append_nil]
    rfl

theorem accept (h : l.Consistent) (p : Priority) (client : ℕ) (frame : List UInt8) (header : Header)
    (hd : Handle) : (l.accept p client frame header hd).Consistent := by
  let e := l.next p client frame hd
  let rs := l.receipts.get p ++ [Session.issue hd frame header]
  constructor
  · intro p' client'
    refine (h.order p' client').trans ?_
    change _ <+: (l.accepted ++ [e]).filter _
    rw [List.filter_append]
    exact List.prefix_append _ _
  · intro p'
    change ((l.accepted ++ [e]).filter _).map _ = List.range ((l.receipts.set p rs).get p').length
    by_cases hp : p = p'
    · subst hp
      rw [List.filter_append, List.filter_cons_of_pos (by simp [e, next]), List.filter_nil,
        List.map_append, h.numbers, PerPriority.get_set, List.length_append, List.length_singleton,
        List.range_succ]
      rfl
    · rw [List.filter_append, List.filter_cons_of_neg (by simpa [e, next] using hp), List.filter_nil,
        List.append_nil, h.numbers, PerPriority.get_set_of_ne _ _ hp]
  · intro e' he'
    change ∃ r, ((l.receipts.set p rs).get e'.priority)[e'.number]? = some r ∧ _
    rcases List.mem_append.mp he' with he' | he'
    · obtain ⟨r, hr, hrest⟩ := h.recorded e' he'
      refine ⟨r, ?_, hrest⟩
      rw [← hr]
      exact l.getElem?_accept_of_lt p client frame header hd (h.number_lt he')
    · obtain rfl := List.mem_singleton.mp he'
      have hnew : e ∉ l.completed := fun hdone =>
        absurd (h.number_lt (h.mem_accepted hdone)) (lt_irrefl _)
      exact ⟨_, l.getElem?_accept_next p client frame header hd, rfl, rfl, iff_of_true rfl hnew⟩

theorem complete (h : l.Consistent) (hw : l.waiting p client = e :: rest) (time : UInt32) :
    (l.complete e time).Consistent := by
  have he : e ∈ l.waiting p client := by simp [hw]
  obtain ⟨hacc, hdone, rfl, rfl⟩ := h.mem_waiting.mp he
  obtain ⟨r, hr, hlive, hhandle, hpay⟩ := h.record he
  constructor
  · intro p' client'
    change Parcel.ofClient p' client' (l.completed ++ [e]) <+: Parcel.ofClient p' client' l.accepted
    rw [h.accepted_eq p' client']
    by_cases hself : e.priority = p' ∧ e.client = client'
    · obtain ⟨rfl, rfl⟩ := hself
      rw [Parcel.ofClient_append_self rfl rfl, hw]
      exact ⟨rest, by simp⟩
    · rw [Parcel.ofClient_append_other hself]
      exact List.prefix_append _ _
  · intro p'
    change _ = List.range ((l.receipts.set _ _).get p').length
    rw [show (l.complete e time).accepted = l.accepted from rfl, h.numbers]
    by_cases hp : e.priority = p'
    · rw [hp, PerPriority.get_set, List.length_modify]
    · rw [PerPriority.get_set_of_ne _ _ hp]
  · intro e' he'
    change ∃ r, _ ∧ _ ∧ _ ∧ (_ ↔ e' ∉ l.completed ++ [e])
    rw [l.getElem?_complete]
    obtain ⟨r', hr', hhandle', hpay', hlive'⟩ := h.recorded e' he'
    by_cases hself : e' = e
    · subst hself
      obtain rfl := Option.some.inj (hr.symm.trans hr')
      refine ⟨r.departed time, ?_, hhandle, hpay, iff_of_false (Nat.succ_ne_zero _) (by simp)⟩
      rw [hr]
      exact congrArg some (if_pos ⟨rfl, rfl⟩)
    · have hmem : e' ∉ l.completed ++ [e] ↔ e' ∉ l.completed := by simp [hself]
      refine ⟨r', ?_, hhandle', hpay', by rw [hmem, hlive']⟩
      rw [hr']
      refine congrArg some (if_neg ?_)
      rintro ⟨hp, hn⟩
      exact hself (h.eq_of_number hacc he' hp.symm hn.symm)

theorem numbers_nodup (h : l.Consistent) {parcels : List Parcel}
    (hmem : ∀ e ∈ parcels, e ∈ l.accepted)
    (hnd : ∀ p client, (Parcel.ofClient p client parcels).Nodup) :
    (parcels.map fun e => (e.priority, e.number)).Nodup := by
  refine List.Nodup.map_on (fun e he e' he' heq => ?_) (Parcel.nodup_of_ofClient hnd)
  obtain ⟨hp, hn⟩ := Prod.mk.inj heq
  exact h.eq_of_number (hmem e' he') (hmem e he) hp hn

theorem completed_nodup (h : l.Consistent) :
    (l.completed.map fun e => (e.priority, e.number)).Nodup :=
  h.numbers_nodup (fun _ he => h.mem_accepted he)
    fun p client => (h.order p client).sublist.nodup (h.accepted_nodup p client)

end Consistent

end Ledger

end EtherBuffer.Egress
