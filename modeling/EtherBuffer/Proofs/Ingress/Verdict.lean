import EtherBuffer.Proofs.Filter.Recipients
import EtherBuffer.Proofs.Frame.Fields
import EtherBuffer.Proofs.Ingress.Conservation
import EtherBuffer.Proofs.Pool.Room
import EtherBuffer.Proofs.Queue.Fifo

/-! The verdict on a frame follows from its bytes, the directory and the options of the clients. -/
namespace EtherBuffer.Ingress

open EtherBuffer.Frame EtherBuffer.Link

def Disposition.rejections : Disposition → UInt32
  | .delivered _ => 0
  | .noMatch | .badLength | .queuesFull => 1

variable {clients depth : ℕ}

/-- The client wants frames of a type. -/
def Client.Takes (c : Client depth) (etherType : UInt16) : Prop :=
  c.etherTypes = [] ∨ etherType ∈ c.etherTypes
  deriving Decidable

theorem Client.accepts_iff {c : Client depth} {etherType : UInt16} :
    c.accepts etherType = true ↔ c.Takes etherType := by
  rw [accepts, Takes, Bool.or_eq_true, List.isEmpty_iff, List.contains_iff_mem]

/-- The address alone is asked for only if there is nothing for the network. -/
def entry? (directory : Directory) (f : List UInt8) : Option Filter.Hit :=
  let key := Filter.Key.ofAddress (destination f)
  if Tagged f then (directory (key.withVlan (network f))).or (directory key) else directory key

namespace Dispatcher

section

variable (d : Dispatcher clients depth) (directory : Directory) (f : List UInt8)

/-- A malformed frame is for nobody. -/
def addressees : Finset (Fin clients) :=
  {i | ¬ Malformed f ∧ ∃ hit ∈ entry? directory f, i.val ∈ hit.recipients.clients ∧
    (d.clients.get i).Takes (etherType f)}

def admitting : Finset (Fin clients) :=
  {i ∈ d.addressees directory f | (d.clients.get i).queue.isFull = false}

/-- The outcome for a frame. -/
def verdict : Disposition :=
  if Malformed f then .badLength
  else if d.addressees directory f = ∅ then .noMatch
  else if d.admitting directory f = ∅ then .queuesFull
  else .delivered (.ofNat (d.admitting directory f).card)

/-- The frame has the outcome that its bytes call for, and nothing else happens to any client. -/
structure Decides [Positive depth] (y : Processed clients depth) : Prop where
  disposition_eq : y.disposition = d.verdict directory f
  count_eq : ∀ n, y.disposition = .delivered n → n.toNat = (d.admitting directory f).card
  queued : ∀ i ∈ d.admitting directory f, ∃ queue,
    y.dispatcher.clients.get i = { d.clients.get i with queue } ∧
      queue.handles = (d.clients.get i).queue.handles ++ [y.handle]
  dropped : ∀ i ∈ d.addressees directory f \ d.admitting directory f,
    y.dispatcher.clients.get i =
      { d.clients.get i with dropped := (d.clients.get i).dropped + 1 }
  others : ∀ i ∉ d.addressees directory f, y.dispatcher.clients.get i = d.clients.get i
  rejected_eq : y.dispatcher.rejected = d.rejected + y.disposition.rejections

end

variable {d : Dispatcher clients depth} {directory : Directory} {f : List UInt8} {i : Fin clients}

theorem mem_addressees : i ∈ d.addressees directory f ↔
    ¬ Malformed f ∧ ∃ hit ∈ entry? directory f, i.val ∈ hit.recipients.clients ∧
      (d.clients.get i).Takes (etherType f) := by
  rw [addressees, Finset.mem_filter]
  exact and_iff_right (Finset.mem_univ i)

theorem addressees_of_malformed (h : Malformed f) : d.addressees directory f = ∅ := by
  rw [Finset.eq_empty_iff_forall_notMem]
  exact fun i hi => (mem_addressees.mp hi).1 h

theorem mem_wanting {hit : Filter.Hit} (hf : ¬ Malformed f) (hhit : entry? directory f = some hit) :
    i ∈ d.wanting hit (etherType f) ↔ i ∈ d.addressees directory f := by
  rw [mem_addressees, wanting, List.mem_filter, Bool.and_eq_true, Recipients.has_eq_decide,
    Client.accepts_iff, decide_eq_true_eq, hhit]
  simp [hf]

theorem card_admitting_le (d : Dispatcher clients depth) (directory : Directory) (f : List UInt8) :
    (d.admitting directory f).card ≤ Recipients.capacity := by
  have hmaps : Set.MapsTo Fin.val (d.admitting directory f : Set (Fin clients))
      (Finset.range Recipients.capacity) := by
    intro i hi
    obtain ⟨-, hit, -, hclient, -⟩ := mem_addressees.mp (Finset.mem_filter.mp hi).1
    exact Finset.mem_range.mpr (Recipients.mem_clients.mp hclient).1
  have hle := Finset.card_le_card_of_injOn _ hmaps Fin.val_injective.injOn
  rwa [Finset.card_range] at hle

theorem classify_eq (d : Dispatcher clients depth) (directory : Directory) (hshort : 14 ≤ f.length)
    (hlong : f.length ≤ 1522) :
    Malformed f ∧ d.classify directory (f.take envelopeSize) f.length = .error .badLength ∨
      ¬ Malformed f ∧ d.addressees directory f = ∅ ∧
        d.classify directory (f.take envelopeSize) f.length = .error .noMatch ∨
      ¬ Malformed f ∧ ∃ delivery,
        d.classify directory (f.take envelopeSize) f.length = .ok delivery ∧
          delivery.receivers ≠ [] ∧ delivery.receivers.Nodup ∧
          ∀ i, i ∈ delivery.receivers ↔ i ∈ d.addressees directory f := by
  have hiff : Malformed f ↔ Tagged f ∧ f.length < 18 := by
    rw [Malformed, or_iff_right (by omega), or_iff_right (by omega)]
  unfold classify
  rw [ofHead?_take hshort]
  by_cases hf : Malformed f
  · rw [if_pos (hiff.mp hf)]
    exact .inl ⟨hf, rfl⟩
  · rw [if_neg fun h => hf (hiff.mpr h)]
    have hentry : hit? directory ⟨destination f, etherType f,
        if Tagged f then some (network f) else none⟩ = entry? directory f := by
      unfold hit? entry?
      split_ifs
      · exact Option.orElse_eq_or
      · rfl
    simp only [hentry]
    cases hhit : entry? directory f with
    | none =>
      refine .inr (.inl ⟨hf, ?_, rfl⟩)
      rw [Finset.eq_empty_iff_forall_notMem]
      intro i hi
      obtain ⟨-, hit, hsome, -⟩ := mem_addressees.mp hi
      rw [hhit] at hsome
      cases hsome
    | some hit =>
      have hmem (i : Fin clients) := mem_wanting (d := d) (i := i) hf hhit
      dsimp only
      cases hw : d.wanting hit (etherType f) with
      | nil =>
        refine .inr (.inl ⟨hf, ?_, rfl⟩)
        rw [Finset.eq_empty_iff_forall_notMem]
        intro i hi
        have := (hmem i).mpr hi
        rw [hw] at this
        cases this
      | cons i is =>
        refine .inr (.inr ⟨hf, _, rfl, List.cons_ne_nil i is, ?_, ?_⟩)
        · exact hw ▸ d.wanting_nodup hit (etherType f)
        · exact hw ▸ hmem

theorem reject_eq {pools : PoolPair} {pool : Pool} {h : Handle} {why : Disposition}
    {y : Processed clients depth} (hy : d.reject pools pool h why = .ok y) :
    y.dispatcher = { d with rejected := d.rejected + 1 } ∧ y.handle = h ∧ y.disposition = why := by
  obtain ⟨freed, -, hy⟩ := bind_eq_ok_iff.mp hy
  obtain rfl := Except.ok.inj hy
  exact ⟨rfl, rfl, rfl⟩

variable [Positive depth]

theorem distribute_eq {pools : PoolPair} {pool : Pool} {h : Handle} {header : Header}
    {delivery : Delivery clients} {line : Line} {y : Processed clients depth}
    (hy : d.distribute pools pool h header delivery line = .ok y) :
    let e := (d.deliverAll h delivery.receivers).1
    let n := (d.deliverAll h delivery.receivers).2
    y.handle = h ∧
      (n = 0 ∧ y.dispatcher = { e with rejected := e.rejected + 1 } ∧ y.disposition = .queuesFull ∨
        n ≠ 0 ∧ y.dispatcher = e ∧ y.disposition = .delivered (.ofNat n)) := by
  unfold distribute at hy
  dsimp only at hy
  split_ifs at hy with hn
  · obtain ⟨hd, hh, hdisposition⟩ := reject_eq hy
    exact ⟨hh, .inl ⟨hn, hd, hdisposition⟩⟩
  · obtain ⟨q, -, hy⟩ := bind_eq_ok_iff.mp hy
    obtain rfl := Except.ok.inj hy
    exact ⟨rfl, .inr ⟨hn, rfl, rfl⟩⟩

variable {Q : Fin clients → List Handle} {h : Handle} {is : List (Fin clients)}
  {y : Processed clients depth}

theorem deliverAll_count (hnd : is.Nodup) (his : ∀ i, i ∈ is ↔ i ∈ d.addressees directory f) :
    (d.deliverAll h is).2 = (d.admitting directory f).card := by
  rw [deliverAll_snd d h hnd, ← List.toFinset_card_of_nodup (hnd.filter _), admitting]
  congr 1
  ext i
  simp [his]

theorem Awaiting.decides (hd : d.Awaiting Q) (hnd : is.Nodup)
    (his : ∀ i, i ∈ is ↔ i ∈ d.addressees directory f)
    (hclients : y.dispatcher.clients = (d.deliverAll y.handle is).1.clients)
    (hverdict : y.disposition = d.verdict directory f)
    (hrejected : y.dispatcher.rejected = d.rejected + y.disposition.rejections) :
    d.Decides directory f y where
  disposition_eq := hverdict
  count_eq n hn := by
    have hle := d.card_admitting_le directory f
    have h31 : Recipients.capacity = 31 := rfl
    rw [hn, verdict] at hverdict
    split_ifs at hverdict
    obtain rfl := Disposition.delivered.inj hverdict
    rw [UInt32.toNat_ofNat', Nat.mod_eq_of_lt (by omega)]
  queued i hi := by
    obtain ⟨hmem, hroom⟩ := Finset.mem_filter.mp hi
    rw [hclients, get_deliverAll d y.handle hnd, if_pos ((his i).mpr hmem)]
    have hlt : (Q i).length < depth := by
      rw [(hd i).isFull_eq] at hroom
      simpa using hroom
    obtain ⟨q, hq, hq'⟩ := (hd i).deliver_room hlt y.handle
    refine ⟨q, by rw [hq], ?_⟩
    have hold : (d.clients.get i).queue.handles = Q i := SlotQueue.Window.handles_solid (hd i)
    rw [hold]
    exact SlotQueue.Window.handles_solid hq'
  dropped i hi := by
    obtain ⟨hmem, hnot⟩ := Finset.mem_sdiff.mp hi
    have hfull : (d.clients.get i).queue.isFull = true := by
      by_contra hroom
      exact hnot (Finset.mem_filter.mpr ⟨hmem, Bool.eq_false_of_not_eq_true hroom⟩)
    rw [hclients, get_deliverAll d y.handle hnd, if_pos ((his i).mpr hmem),
      Client.deliver_of_full hfull]
  others i hi := by
    rw [hclients, get_deliverAll d y.handle hnd, if_neg fun hmem => hi ((his i).mp hmem)]
  rejected_eq := hrejected

theorem Awaiting.decides_of_reject (hd : d.Awaiting Q) {pools : PoolPair} {pool : Pool}
    {why : Disposition} (hy : d.reject pools pool h why = .ok y)
    (hnobody : d.addressees directory f = ∅) (hverdict : why = d.verdict directory f)
    (hwhy : why.rejections = 1) : y.handle = h ∧ d.Decides directory f y := by
  obtain ⟨hdispatcher, hh, rfl⟩ := reject_eq hy
  refine ⟨hh, hd.decides List.nodup_nil ?_ ?_ hverdict ?_⟩
  · simp [hnobody]
  · rw [hdispatcher]
    rfl
  · rw [hdispatcher, hwhy]

theorem Awaiting.decides_of_distribute (hd : d.Awaiting Q) {pools : PoolPair} {pool : Pool}
    {header : Header} {delivery : Delivery clients} {line : Line}
    (hy : d.distribute pools pool h header delivery line = .ok y) (hf : ¬ Malformed f)
    (hsome : delivery.receivers ≠ []) (hnd : delivery.receivers.Nodup)
    (his : ∀ i, i ∈ delivery.receivers ↔ i ∈ d.addressees directory f) :
    y.handle = h ∧ d.Decides directory f y := by
  obtain ⟨rfl, hcases⟩ := distribute_eq hy
  have hcount := deliverAll_count (h := y.handle) hnd his
  have hsomebody : d.addressees directory f ≠ ∅ := by
    obtain ⟨i, hi⟩ := List.exists_mem_of_ne_nil _ hsome
    exact Finset.ne_empty_of_mem ((his i).mp hi)
  have hrejected := congrArg rejected (d.deliverAll_fst y.handle delivery.receivers)
  refine ⟨rfl, ?_⟩
  rw [hcount] at hcases
  rcases hcases with ⟨hn, hdispatcher, hy⟩ | ⟨hn, hdispatcher, hy⟩
  · refine hd.decides hnd his ?_ ?_ ?_
    · rw [hdispatcher]
    · rw [hy, verdict, if_neg hf, if_neg hsomebody, if_pos (Finset.card_eq_zero.mp hn)]
    · rw [hdispatcher, hrejected, hy]
      rfl
  · refine hd.decides hnd his ?_ ?_ ?_
    · rw [hdispatcher]
    · rw [hy, verdict, if_neg hf, if_neg hsomebody, if_neg fun h => hn (Finset.card_eq_zero.mpr h)]
    · rw [hdispatcher, hrejected, hy]
      exact (UInt32.add_zero _).symm

theorem Awaiting.decides_of_dispatch (hd : d.Awaiting Q) {pools : PoolPair} {pool : Pool}
    {r : Receipt} (hr : pool.Shows r) (hl : r.header.length.toNat = r.payload.length) {line : Line}
    (hy : d.dispatch pools pool r.handle directory line = .ok y) :
    y.handle = r.handle ∧ d.Decides directory r.payload y := by
  unfold dispatch at hy
  rw [hr.header, ok_bind, hr.readPayload_eq hl, List.drop_zero] at hy
  simp only [hl, ok_bind] at hy
  by_cases hv : 14 ≤ r.payload.length ∧ r.payload.length ≤ 1522
  · have hvalid : validLength r.payload.length = true := decide_eq_true hv
    rw [if_neg (by simp [hvalid])] at hy
    rcases d.classify_eq directory hv.1 hv.2 with ⟨hf, he⟩ | ⟨hf, hnobody, he⟩ |
      ⟨hf, delivery, he, hsome, hnd, his⟩
    · rw [he] at hy
      refine hd.decides_of_reject hy (addressees_of_malformed hf) ?_ rfl
      rw [verdict, if_pos hf]
    · rw [he] at hy
      refine hd.decides_of_reject hy hnobody ?_ rfl
      rw [verdict, if_neg hf, if_pos hnobody]
    · rw [he] at hy
      exact hd.decides_of_distribute hy hf hsome hnd his
  · have hvalid : validLength r.payload.length = false := decide_eq_false hv
    have hf : Malformed r.payload := by
      unfold Malformed
      omega
    rw [if_pos (by simp [hvalid])] at hy
    refine hd.decides_of_reject hy (addressees_of_malformed hf) ?_ rfl
    rw [verdict, if_pos hf]

end Dispatcher

namespace Reception

variable [Positive depth]

theorem Balanced.decides {x : Reception clients depth} {Q : Fin clients → List Handle}
    {passed : PerPriority ℕ} (hb : x.Balanced Q passed) {h : Handle}
    (hn : x.dispatcher.next x.pools = some h) (directory : Directory) (line : Line) :
    ∃ s r y, x.session h.priority = some s ∧ r ∈ s.receipts ∧ r.handle = h ∧ s.pool.Shows r ∧
      r.header.length.toNat = r.payload.length ∧
      x.dispatcher.process x.pools directory line = .ok (some y) ∧ y.handle = h ∧
      x.dispatcher.Decides directory r.payload y := by
  rcases hb.process directory line with ⟨hnone, -⟩ | ⟨u, -, p, s, r, -, hy, hs, hk, hnext, -⟩
  · obtain ⟨p, hp⟩ := Dispatcher.next_eq_some hn
    rw [hnone p] at hp
    cases hp
  obtain rfl := Option.some.inj (hn.symm.trans hnext)
  have hf := hb.follows p s hs
  have hlive := hf.ahead _ le_rfl r hk
  obtain ⟨base, gone, held, hsound⟩ := hf.kept
  obtain rfl := hb.handle_priority ⟨s, hs, hk, hlive⟩
  have hshows := hsound.shows hk hlive
  have hlength := hsound.length_toNat hf.measured hk hlive
  -- That nothing faults is known, so that it is left to see how the answer came about.
  obtain ⟨answer, hprocess, hy⟩ := bind_eq_ok_iff.mp hy
  obtain ⟨y, rfl, -⟩ := Option.map_eq_some_iff.mp (Except.ok.inj hy)
  have hdispatch := hprocess
  rw [Dispatcher.process, hn] at hdispatch
  simp only [(session_eq_some_iff.mp hs).1] at hdispatch
  obtain ⟨c, -, hdispatch⟩ := bind_eq_ok_iff.mp hdispatch
  obtain ⟨z, hz, hdispatch⟩ := bind_eq_ok_iff.mp hdispatch
  obtain rfl : z = y := Option.some.inj (Except.ok.inj hdispatch)
  have hawaiting : Dispatcher.Awaiting { x.dispatcher with
      cursors := x.dispatcher.cursors.set r.handle.priority c } Q := hb.awaiting
  obtain ⟨hhandle, hdecides⟩ := hawaiting.decides_of_dispatch hshows hlength hz
  refine ⟨s, r, z, hs, List.mem_of_getElem? hk, rfl, hshows, hlength, hprocess, hhandle, ?_⟩
  -- The cursor has no part in the verdict.
  exact ⟨hdecides.disposition_eq, hdecides.count_eq, hdecides.queued, hdecides.dropped,
    hdecides.others, hdecides.rejected_eq⟩

/-- Whatever was done before, the next frame is decided by the bytes that were committed, the directory
and the options of the clients. -/
theorem reached_decides (policy : Policy) (low : Pool) (high : Option Pool)
    (hlow : low.Fresh .low) (hhigh : ∀ pool ∈ high, pool.Fresh .high) :
    ∃ pools, PoolPair.create low high = .ok pools ∧
      ∀ x : Reception clients depth,
        Reached ⟨.empty clients depth policy, pools, .both none, .both []⟩ x →
          ∀ directory line,
            (x.dispatcher.next x.pools = none →
              x.dispatcher.process x.pools directory line = .ok none) ∧
            ∀ h, x.dispatcher.next x.pools = some h → ∃ pool r y,
              x.pools.get h.priority = some pool ∧ r ∈ x.receipts.get h.priority ∧
                r.handle = h ∧ pool.Shows r ∧ r.header.length.toNat = r.payload.length ∧
                x.dispatcher.process x.pools directory line = .ok (some y) ∧ y.handle = h ∧
                x.dispatcher.Decides directory r.payload y := by
  refine ⟨_, PoolPair.create_fresh hlow hhigh, fun x hx directory line => ?_⟩
  obtain ⟨Q, passed, hb⟩ := (Balanced.fresh policy hlow hhigh).reached hx
  constructor
  · intro hn
    rw [Dispatcher.process, hn]
  · intro h hn
    obtain ⟨s, r, y, hs, hr, hrest⟩ := hb.decides hn directory line
    obtain ⟨hpool, -, hreceipts⟩ := session_eq_some_iff.mp hs
    rw [← hreceipts] at hr
    exact ⟨s.pool, r, y, hpool, hr, hrest⟩

/-- A tagged frame goes around the end of the ring. One of its clients has no room, and one takes other
types. -/
theorem reached_decides_wrapped :
    ∃ low high pools, Pool.Fresh low .low ∧ Pool.Fresh high .high ∧
      PoolPair.create low (some high) = .ok pools ∧ ∃ x : Reception 3 1,
        Reached ⟨.empty 3 1 .lowFirst, pools, .both none, .both []⟩ x ∧
        ∃ directory h y, x.dispatcher.next x.pools = some h ∧ h.position = 60 ∧ low.capacity = 200 ∧
          x.dispatcher.process x.pools directory {} = .ok (some y) ∧ y.disposition = .delivered 1 ∧
          (y.dispatcher.clients.get 0).dropped = 1 ∧
          (y.dispatcher.clients.get 1).queue.handles = [h] ∧
          y.dispatcher.clients.get 2 = x.dispatcher.clients.get 2 ∧ y.dispatcher.rejected = 1 := by
  let pool (p : Priority) : Pool :=
    { arena := .replicate 200 0, priority := p, roomy := by decide +kernel }
  have hfresh (p : Priority) : (pool p).Fresh p :=
    ⟨.replicate 200 0, by decide +kernel, dif_pos (pool p).roomy⟩
  have hcapacity : (pool .low).capacity = 200 := by decide +kernel
  let frame : List UInt8 := .replicate 12 2 ++ [0x81, 0, 0x60, 9, 0x86, 0xDD] ++ .replicate 102 4
  let key : Filter.Key := .ofAddress ⟨.replicate 6 2⟩
  let first : Directory := fun _ => some ⟨.ofList false [0], 5⟩
  let all : Directory := fun k => if k = key then some ⟨.ofList false [0, 1, 2, 7], 5⟩ else none
  let actions : List Action := [.produce .high .reserve, .produce .high (.write (.replicate 14 1)),
    .produce .high (.commit {}), .process first {}, .produce .low .reserve,
    .produce .low (.write (.replicate 14 1)), .produce .low (.commit {}), .process all {},
    .configure 2 (.addEtherType 0x0800), .produce .low .reserve, .produce .low (.write frame),
    .produce .low (.commit {})]
  let start : Reception 3 1 :=
    ⟨.empty 3 1 .lowFirst, ⟨pool .low, some (pool .high)⟩, .both none, .both []⟩
  have hrun : (start.run actions).map (fun x => decide (
      x.dispatcher.next x.pools = some ⟨.low, 60⟩ ∧
        x.receipts.low.map (fun r => (r.handle.position, r.payload)) =
          [(0, .replicate 14 1), (60, frame)] ∧
        x.dispatcher.verdict all frame = .delivered 1 ∧
        x.dispatcher.addressees all frame = {0, 1} ∧ x.dispatcher.admitting all frame = {1} ∧
        (x.dispatcher.clients.get 0).dropped = 0 ∧
        (x.dispatcher.clients.get 1).queue.handles = [] ∧ x.dispatcher.rejected = 1)) =
      some true := by
    decide +kernel
  obtain ⟨x, hx, he⟩ := Option.map_eq_some_iff.mp hrun
  obtain ⟨hnext, hreceipts, hverdict, haddressees, hadmitting, hdropped, hnil, hrejected⟩ :=
    of_decide_eq_true he
  have hreached : Reached start x := reached_of_run hx
  have hhigh : ∀ q ∈ some (pool .high), Pool.Fresh q .high := by
    rintro _ ⟨⟩
    exact hfresh .high
  have hcreate := PoolPair.create_fresh (hfresh .low) hhigh
  obtain ⟨pools, hpools, hall⟩ := @reached_decides 3 1 _ .lowFirst (pool .low)
    (some (pool .high)) (hfresh .low) hhigh
  obtain rfl := Except.ok.inj (hpools.symm.trans hcreate)
  obtain ⟨q, r, y, -, hr, hh, -, -, hprocess, hy, hdecides⟩ := (hall x hreached all {}).2 _ hnext
  have hframe : r.payload = frame := by
    have hmem : (r.handle.position, r.payload) ∈
        x.receipts.low.map (fun r => (r.handle.position, r.payload)) := List.mem_map_of_mem hr
    rw [hreceipts, hh] at hmem
    simpa [Handle.position] using hmem
  rw [hframe] at hdecides
  obtain ⟨queue, hqueue, hhandles⟩ := hdecides.queued 1 (by simp [hadmitting])
  refine ⟨_, _, _, hfresh .low, hfresh .high, hcreate, x, hreached, all, _, y, hnext, rfl,
    hcapacity, hprocess, ?_, ?_, ?_, ?_, ?_⟩
  · rw [hdecides.disposition_eq, hverdict]
  · rw [hdecides.dropped 0 (by simp [haddressees, hadmitting]), hdropped]
    rfl
  · rw [hqueue, hhandles, hnil, hy]
    rfl
  · exact hdecides.others 2 (by simp [haddressees])
  · rw [hdecides.rejected_eq, hdecides.disposition_eq, hverdict, hrejected]
    rfl

end Reception

end EtherBuffer.Ingress
