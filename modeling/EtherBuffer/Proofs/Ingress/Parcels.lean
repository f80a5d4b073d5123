import EtherBuffer.Proofs.Frame.Fields
import EtherBuffer.Proofs.Ingress.Conservation
import EtherBuffer.Proofs.Ingress.Traffic
import Mathlib.Data.List.Forall2

/-! The parcels of a client: the first ones were handed out, and the others wait in its queue. -/
namespace EtherBuffer.Ingress

open Link

variable {clients depth : ℕ}

namespace Parcel

/-- The payload and the header of a record are those of the frame as it was classified. -/
structure Describes (e : Parcel) (r : Receipt) : Prop where
  payload_eq : r.payload = e.record.payload
  tagged_eq : r.header.tagged = e.envelope.vlan.isSome
  timestamp_eq : r.header.timestamp = e.line.arrival e.record.header.timestamp
  line_eq : r.header.line = e.record.header.line
  appData_eq : r.header.appData = e.hit.appData

/-- The frame has its fields and fits on the wire, and its envelope knows of its tag. -/
structure Framed (e : Parcel) : Prop where
  wellFormed : ¬ Frame.Malformed e.record.payload
  tagged_eq : e.envelope.vlan.isSome = decide (Frame.Tagged e.record.payload)

variable {e : Parcel} {r : Receipt}

theorem framed_of_envelope (hv : Dispatcher.validLength e.record.payload.length = true)
    (henvelope : Frame.Envelope.ofHead? (e.record.payload.take Frame.envelopeSize)
      e.record.payload.length = some e.envelope) : e.Framed := by
  have hlength : 14 ≤ e.record.payload.length ∧ e.record.payload.length ≤ 1522 :=
    of_decide_eq_true hv
  rw [Frame.ofHead?_take hlength.1] at henvelope
  by_cases hshort : Frame.Tagged e.record.payload ∧ e.record.payload.length < 18
  · rw [if_pos hshort] at henvelope
    cases henvelope
  rw [if_neg hshort] at henvelope
  have he := Option.some.inj henvelope
  constructor
  · rintro (hlow | hhigh | htag)
    · omega
    · omega
    · exact hshort htag
  · rw [← he]
    by_cases ht : Frame.Tagged e.record.payload
    · simp only [if_pos ht, decide_eq_true ht, Option.isSome_some]
    · simp only [if_neg ht, decide_eq_false ht, Option.isSome_none]

namespace Framed

theorem length_content (h : e.Framed) (strips : Bool) :
    Frame.headerSize ≤ (e.content strips).length ∧
      (e.content strips).length ≤ Frame.maxTaggedSize := by
  obtain ⟨hlow, hhigh, htag⟩ := not_or.mp h.wellFormed |>.imp_right not_or.mp
  unfold Parcel.content Dispatcher.content
  simp only [h.tagged_eq, Bool.and_eq_true, decide_eq_true_eq, Frame.headerSize,
    Frame.maxTaggedSize, Frame.maxSize, Frame.maxPayload, Frame.checksumSize, Frame.tagSize,
    Frame.etherTypeOffset]
  split_ifs with hstrip
  · -- A frame with a tag has the inner type behind it.
    have hinner : 18 ≤ e.record.payload.length := by
      by_contra hshort
      exact htag ⟨hstrip.2, by omega⟩
    rw [List.length_append, List.length_take, List.length_drop]
    omega
  · omega

end Framed

theorem Describes.collected (h : e.Describes r) : e.Describes r.collected := by
  unfold Receipt.collected Receipt.taken
  split_ifs <;> exact ⟨h.payload_eq, h.tagged_eq, h.timestamp_eq, h.line_eq, h.appData_eq⟩

theorem Describes.fits (h : e.Describes r) (strips : Bool) (n : ℕ) :
    e.Fits ⟨n, strips, Dispatcher.answer strips n r⟩ := by
  have hcontent : Dispatcher.content strips r.header.tagged r.payload = e.content strips := by
    rw [h.tagged_eq, h.payload_eq]
    rfl
  refine ⟨?_, ?_, h.timestamp_eq, h.line_eq, h.appData_eq⟩
  · rw [← hcontent]
    exact List.length_take
  · rw [← hcontent]
    exact List.take_prefix _ _

end Parcel

namespace Reception

variable {x y : Reception clients depth} {e : Parcel} {h : Handle}

/-- A handle stands for a record that describes the parcel. -/
def Carries (x : Reception clients depth) (e : Parcel) (h : Handle) : Prop :=
  ∃ r, x.Has e.priority e.number r ∧ r.handle = h ∧ e.Describes r

theorem Carries.of_has (hc : x.Carries e h)
    (hy : ∀ r, x.Has e.priority e.number r → y.Has e.priority e.number r) : y.Carries e h := by
  obtain ⟨r, hr, hrest⟩ := hc
  exact ⟨r, hy r hr, hrest⟩

variable [Positive depth] {Q : Fin clients → List Handle} {passed : PerPriority ℕ} {p : Priority}
  {s : Session} {j : ℕ} {r : Receipt} {i : Fin clients} {hs : List Handle}

theorem Collects.carries (hy : x.Collects y Q passed i hs s j r) (hx : x.Balanced Q passed)
    (hc : x.Carries e h) {k : Fin clients} (hk : h ∈ Function.update Q i hs k) : y.Carries e h := by
  obtain ⟨w, hw, rfl, hd⟩ := hc
  have hhas := hx.has_of_amends hy.session_eq hy.record hy.live hy.amends hy.balanced hw hk
  split_ifs at hhas with hself
  · -- Two clients wait for the record, so that it was not released and lost one share.
    obtain ⟨hp, hj⟩ := hself
    rw [hp, hj] at hw
    obtain rfl := hw.unique ⟨s, hy.session_eq, hy.record, hy.live⟩
    exact ⟨_, hhas, w.collected_handle, hd.collected⟩
  · exact ⟨w, hhas, rfl, hd⟩

end Reception

theorem forall₂_imp_mem {α β : Type} {R S : α → β → Prop} {as : List α} {bs : List β}
    (h : List.Forall₂ R as bs) (himp : ∀ a ∈ as, ∀ b ∈ bs, R a b → S a b) :
    List.Forall₂ S as bs :=
  List.forall₂_iff_zip.mpr ⟨h.length_eq, fun hab =>
    himp _ (List.of_mem_zip hab).1 _ (List.of_mem_zip hab).2 (List.forall₂_zip h hab)⟩

namespace Traffic

variable [Positive depth] {t : Traffic clients depth} {Q Q' : Fin clients → List Handle}
  {p : Priority} {s : Session} {r r' : Receipt} {y : Reception clients depth}
  {directory : Directory} {line : Line}

/-- The books agree with the reception. -/
structure Tracked (t : Traffic clients depth) (Q : Fin clients → List Handle) : Prop where
  balanced : t.reception.Balanced Q t.passed
  length_eq : ∀ p, (t.issued.get p).length = (t.reception.receipts.get p).length
  /-- Records are as they were committed until they are classified. -/
  unread : ∀ p j, t.passed.get p ≤ j →
    (t.issued.get p)[j]? = (t.reception.receipts.get p)[j]?
  genuine : ∀ i, ∀ e ∈ t.delivered i, e.number < t.passed.get e.priority ∧
    (t.issued.get e.priority)[e.number]? = some e.record
  framed : ∀ i, ∀ e ∈ t.delivered i, e.Framed
  ordered : ∀ i, (t.delivered i).Pairwise Parcel.Precedes
  traced : ∀ i, ∃ done waiting, t.delivered i = done ++ waiting ∧
    List.Forall₂ Parcel.Fits done (t.collected i) ∧
      List.Forall₂ t.reception.Carries waiting (Q i)

namespace Tracked

theorem size_eq (h : t.Tracked Q) (i : Fin clients) : (t.client i).queue.size = (Q i).length :=
  SlotQueue.Window.size_solid (h.balanced.awaiting i)

theorem withDispatcher (h : t.Tracked Q) {d : Dispatcher clients depth}
    (hb : Reception.Balanced { t.reception with dispatcher := d } Q t.passed) :
    Tracked { t with reception := { t.reception with dispatcher := d } } Q :=
  ⟨hb, h.length_eq, h.unread, h.genuine, h.framed, h.ordered, h.traced⟩

section Classify

variable (h : t.Tracked Q) (hs : t.reception.session p = some s)
  (hk : s.receipts[t.passed.get p]? = some r)
  (hy : t.reception.Classifies y directory line Q Q' t.passed p s r r')
include h hs hk

theorem issued_eq : (t.issued.get p)[t.passed.get p]? = some r := by
  rw [h.unread p _ le_rfl, (Reception.session_eq_some_iff.mp hs).2.2, hk]

include hy

theorem classified_cases (i : Fin clients) :
    Q' i = Q i ∧ (t.classified directory line p y).delivered i = t.delivered i ∨
      ∃ e : Parcel, e.priority = p ∧ e.number = t.passed.get p ∧ e.record = r ∧ e.Framed ∧
        Q' i = Q i ++ [r.handle] ∧ y.Carries e r.handle ∧
        (t.classified directory line p y).delivered i = t.delivered i ++ [e] := by
  have hsize := h.size_eq i
  have hsize' : (y.dispatcher.clients.get i).queue.size = (Q' i).length :=
    SlotQueue.Window.size_solid (hy.balanced.awaiting i)
  unfold classified
  simp only [hsize, hsize']
  by_cases hQi : Q' i = Q i
  · exact .inl ⟨hQi, if_neg (by rw [hQi]; exact lt_irrefl _)⟩
  obtain ⟨envelope, hit, is, count, hv, henvelope, hhit, hQ, rfl⟩ :=
    hy.outcome.resolve_left fun hQ => hQi (congrFun hQ i)
  have hroom : i ∈ is ∧ (Q i).length < depth := by
    by_contra hno
    exact hQi (by rw [hQ]; exact if_neg hno)
  have hQi' : Q' i = Q i ++ [r.handle] := by
    rw [hQ]
    exact if_pos hroom
  let e : Parcel := ⟨p, t.passed.get p, r, envelope, hit, line⟩
  have hparcel : t.parcel directory line p = some e := by
    simp only [parcel, h.issued_eq hs hk, Option.bind_eq_bind, Option.bind_some, henvelope, hhit]
    rfl
  have hlive := (h.balanced.follows p s hs).ahead _ le_rfl r hk
  have hlen := (List.getElem?_eq_some_iff.mp hk).1
  have hcarries : y.Carries e r.handle :=
    ⟨_, (hy.amends.has_self hs).mpr ⟨List.getElem?_set_self hlen, hlive⟩, rfl, rfl, rfl, rfl, rfl,
      rfl⟩
  refine .inr ⟨e, rfl, rfl, rfl, Parcel.framed_of_envelope hv henvelope, hQi', hcarries, ?_⟩
  have hgrown : (Q i).length < (Q' i).length := by
    rw [hQi', List.length_append]
    exact Nat.lt_succ_self _
  rw [if_pos hgrown, hparcel]
  rfl

theorem mem_classified {i : Fin clients} {e : Parcel}
    (he : e ∈ (t.classified directory line p y).delivered i) :
    e ∈ t.delivered i ∨
      e.priority = p ∧ e.number = t.passed.get p ∧ e.record = r ∧ e.Framed := by
  rcases h.classified_cases hs hk hy i with ⟨-, hd⟩ | ⟨e', hp, hn, hr, hframed, -, -, hd⟩
  · rw [hd] at he
    exact .inl he
  · rw [hd] at he
    rcases List.mem_append.mp he with he | he
    · exact .inl he
    · obtain rfl := List.mem_singleton.mp he
      exact .inr ⟨hp, hn, hr, hframed⟩

theorem genuine_classified {i : Fin clients} {e : Parcel}
    (he : e ∈ (t.classified directory line p y).delivered i) :
    e.number < (t.classified directory line p y).passed.get e.priority ∧
      (t.issued.get e.priority)[e.number]? = some e.record := by
  rcases h.mem_classified hs hk hy he with he | ⟨rfl, hn, rfl, -⟩
  · obtain ⟨hlt, hget⟩ := h.genuine i e he
    exact ⟨hlt.trans_le (t.passed_le_classified directory line p y _), hget⟩
  · refine ⟨?_, by rw [hn]; exact h.issued_eq hs hk⟩
    change _ < (t.passed.set e.priority _).get e.priority
    rw [PerPriority.get_set, hn]
    exact Nat.lt_succ_self _

theorem framed_classified {i : Fin clients} {e : Parcel}
    (he : e ∈ (t.classified directory line p y).delivered i) : e.Framed := by
  rcases h.mem_classified hs hk hy he with he | ⟨-, -, -, hframed⟩
  · exact h.framed i e he
  · exact hframed

theorem traced_classified (i : Fin clients) :
    ∃ done waiting, (t.classified directory line p y).delivered i = done ++ waiting ∧
      List.Forall₂ Parcel.Fits done (t.collected i) ∧ List.Forall₂ y.Carries waiting (Q' i) := by
  obtain ⟨done, waiting, hd, hfits, hcarries⟩ := h.traced i
  -- Only the record at the cursor was changed, and what waits is older.
  have hkept : List.Forall₂ y.Carries waiting (Q i) := by
    refine forall₂_imp_mem hcarries fun e he _ _ hc => hc.of_has fun w hw => ?_
    refine hy.amends.has_of_other hs hw ?_
    rintro ⟨rfl, hn⟩
    have hlt := (h.genuine i e (by rw [hd]; exact List.mem_append_right _ he)).1
    omega
  rcases h.classified_cases hs hk hy i with ⟨hQ, hd'⟩ | ⟨e', -, -, -, -, hQ, hc, hd'⟩
  · exact ⟨done, waiting, hd'.trans hd, hfits, by rwa [hQ]⟩
  · refine ⟨done, waiting ++ [e'], ?_, hfits, ?_⟩
    · rw [hd', hd, List.append_assoc]
    · rw [hQ]
      exact List.rel_append hkept (.cons hc .nil)

theorem classified : (t.classified directory line p y).Tracked Q' := by
  refine ⟨hy.balanced, ?_, ?_, fun i e he => h.genuine_classified hs hk hy he,
    fun i e he => h.framed_classified hs hk hy he, ?_, h.traced_classified hs hk hy⟩
  · intro q
    exact (h.length_eq q).trans (hy.amends.length_eq hs q).symm
  · intro q j hj
    have hle := (t.passed_le_classified directory line p y q).trans hj
    refine (h.unread q j hle).trans (hy.amends.getElem?_of_other hs ?_).symm
    rintro ⟨rfl, rfl⟩
    change (t.passed.set q _).get q ≤ _ at hj
    rw [PerPriority.get_set] at hj
    omega
  · intro i
    rcases h.classified_cases hs hk hy i with ⟨-, hd⟩ | ⟨e', hp, hn, -, -, -, -, hd⟩
    · rw [hd]
      exact h.ordered i
    · rw [hd]
      refine List.pairwise_append.mpr ⟨h.ordered i, List.pairwise_singleton _ _, ?_⟩
      intro e he e'' he'' hprio
      obtain rfl := List.mem_singleton.mp he''
      rw [hn, ← hp, ← hprio]
      exact (h.genuine i e he).1

end Classify

theorem process_cases (h : t.Tracked Q) (directory : Directory) (line : Line) :
    t.reception.dispatcher.next t.reception.pools = none ∧
        t.process directory line = .ok none ∨
      ∃ y Q' p s r r', t.reception.dispatcher.next t.reception.pools = some r.handle ∧
        t.reception.process directory line = .ok (some y) ∧
        t.process directory line = .ok (some (t.classified directory line p y)) ∧
        t.reception.session p = some s ∧ s.receipts[t.passed.get p]? = some r ∧
        t.reception.Classifies y directory line Q Q' t.passed p s r r' := by
  unfold Traffic.process
  rcases h.balanced.process directory line with
    ⟨hnone, he⟩ | ⟨y, Q', p, s, r, r', he, hs, hk, hn, hy⟩
  · rw [he]
    cases hn : t.reception.dispatcher.next t.reception.pools with
    | none => exact .inl ⟨rfl, rfl⟩
    | some x =>
      obtain ⟨p, hp⟩ := Dispatcher.next_eq_some hn
      rw [hnone p] at hp
      cases hp
  · have hlive := (h.balanced.follows p s hs).ahead _ le_rfl r hk
    have hp := h.balanced.handle_priority ⟨s, hs, hk, hlive⟩
    refine .inr ⟨y, Q', p, s, r, r', hn, he, ?_, hs, hk, hy⟩
    rw [he, hn, ← hp]
    rfl

theorem process (h : t.Tracked Q) (directory : Directory) (line : Line) :
    t.process directory line = .ok none ∨
      ∃ u Q', t.process directory line = .ok (some u) ∧ u.Tracked Q' := by
  rcases h.process_cases directory line with
    ⟨-, he⟩ | ⟨y, Q', p, s, r, r', -, -, he, hs, hk, hy⟩
  · exact .inl he
  · exact .inr ⟨_, Q', he, h.classified hs hk hy⟩

theorem processUpTo (h : t.Tracked Q) (directory : Directory) (line : Line) (n : ℕ) :
    ∃ u Q', t.processUpTo directory line n = .ok u ∧ u.Tracked Q' := by
  induction n generalizing t Q with
  | zero => exact ⟨t, Q, rfl, h⟩
  | succ n ih =>
    unfold Traffic.processUpTo
    rcases h.process directory line with he | ⟨u, Q', he, hu⟩
    · exact ⟨t, Q, by rw [he]; rfl, h⟩
    · rw [he]
      exact ih hu

theorem produced (h : t.Tracked Q) {u : Session} {new : List Receipt}
    (hs : t.reception.session p = some s) (hnew : u.receipts = s.receipts ++ new)
    (hb : (t.reception.setSession p u).Balanced Q t.passed) :
    (t.produced p (t.reception.setSession p u)).Tracked Q := by
  let y := t.reception.setSession p u
  have hgrown (q : Priority) : ∃ more, (t.produced p y).issued.get q = t.issued.get q ++ more ∧
      y.receipts.get q = t.reception.receipts.get q ++ more := by
    change ∃ more, (t.issued.set p (t.issued.get p ++
      (((t.reception.receipts.set p u.receipts).get p).drop _))).get q = _ ∧
      (t.reception.receipts.set p u.receipts).get q = _
    by_cases hq : p = q
    · subst hq
      refine ⟨new, ?_, ?_⟩ <;>
        simp only [PerPriority.get_set, hnew, (Reception.session_eq_some_iff.mp hs).2.2,
          List.drop_left]
    · refine ⟨[], ?_, ?_⟩ <;> rw [PerPriority.get_set_of_ne _ _ hq, List.append_nil]
  refine ⟨hb, ?_, ?_, ?_, h.framed, h.ordered, ?_⟩
  · intro q
    obtain ⟨more, hissued, hreceipts⟩ := hgrown q
    change _ = (y.receipts.get q).length
    rw [hissued, hreceipts, List.length_append, List.length_append, h.length_eq]
  · intro q j hj
    obtain ⟨more, hissued, hreceipts⟩ := hgrown q
    change _ = (y.receipts.get q)[j]?
    rw [hissued, hreceipts, List.getElem?_append, List.getElem?_append, h.length_eq,
      h.unread q j hj]
  · intro i e he
    obtain ⟨hlt, hget⟩ := h.genuine i e he
    obtain ⟨more, hissued, -⟩ := hgrown e.priority
    refine ⟨hlt, ?_⟩
    rw [hissued, List.getElem?_append_left (List.getElem?_eq_some_iff.mp hget).1, hget]
  · intro i
    obtain ⟨done, waiting, hd, hfits, hcarries⟩ := h.traced i
    exact ⟨done, waiting, hd, hfits,
      hcarries.imp fun e _ hc => hc.of_has fun r hr => hr.setSession hs hnew⟩

/-- What a client collects is the record of the first parcel that was not handed out. -/
theorem oldest (h : t.Tracked Q) {i : Fin clients} {hs' : List Handle} {j : ℕ}
    (hy : t.reception.Collects y Q t.passed i hs' s j r) :
    ∃ done e rest, t.delivered i = done ++ e :: rest ∧
      List.Forall₂ Parcel.Fits done (t.collected i) ∧ e.Describes r ∧
        List.Forall₂ t.reception.Carries rest hs' := by
  have hhas : t.reception.Has r.handle.priority j r := ⟨s, hy.session_eq, hy.record, hy.live⟩
  obtain ⟨done, waiting, hd, hfits, hcarries⟩ := h.traced i
  rw [hy.front_eq] at hcarries
  obtain ⟨e, rest, ⟨w, hw, hwr, hdescribes⟩, hrest, rfl⟩ :=
    List.forall₂_cons_right_iff.mp hcarries
  obtain rfl := h.balanced.eq_of_handle hw hhas hwr
  exact ⟨done, e, rest, hd, hfits, hdescribes, hrest⟩

theorem handed (h : t.Tracked Q) {i : Fin clients} {hs' : List Handle} {j : ℕ}
    (hy : t.reception.Collects y Q t.passed i hs' s j r) (n : ℕ) :
    (t.handed i n (Dispatcher.answer (t.client i).stripsTag n r) y).Tracked
      (Function.update Q i hs') := by
  have hhas : t.reception.Has r.handle.priority j r := ⟨s, hy.session_eq, hy.record, hy.live⟩
  refine ⟨hy.balanced, ?_, ?_, h.genuine, h.framed, h.ordered, ?_⟩
  · intro q
    exact (h.length_eq q).trans (hy.amends.length_eq hy.session_eq q).symm
  · intro q k hk
    refine (h.unread q k hk).trans (hy.amends.getElem?_of_other hy.session_eq ?_).symm
    rintro ⟨rfl, rfl⟩
    have hlt := h.balanced.lt_passed hhas (i := i) (by rw [hy.front_eq]; exact List.mem_cons_self)
    exact absurd hk (Nat.not_le.mpr hlt)
  · intro k
    have hkept {es : List Parcel}
        (hes : List.Forall₂ t.reception.Carries es (Function.update Q i hs' k)) :
        List.Forall₂ y.Carries es (Function.update Q i hs' k) :=
      forall₂_imp_mem hes fun _ _ _ hmem hc => hy.carries h.balanced hc hmem
    rw [t.handed_collected i k]
    by_cases hki : k = i
    · subst hki
      obtain ⟨done, e, rest, hd, hfits, hdescribes, hrest⟩ := h.oldest hy
      refine ⟨done ++ [e], rest, hd.trans (List.append_cons _ _ _), ?_, ?_⟩
      · rw [if_pos rfl]
        exact List.rel_append hfits (.cons (hdescribes.fits _ n) .nil)
      · refine hkept ?_
        rwa [Function.update_self]
    · obtain ⟨done, waiting, hd, hfits, hcarries⟩ := h.traced k
      refine ⟨done, waiting, hd, ?_, ?_⟩
      · rwa [if_neg hki]
      · refine hkept ?_
        rwa [Function.update_of_ne hki]

theorem collect_cases (h : t.Tracked Q) (client n : ℕ) :
    (∀ i : Fin clients, i.val = client → Q i = []) ∧ t.collect client n = .ok t ∨
      ∃ (i : Fin clients) (y : Reception clients depth) (hs' : List Handle) (s : Session) (j : ℕ)
        (r : Receipt), i.val = client ∧
        t.reception.dispatcher.collect client t.reception.pools n = .ok (some (y.dispatcher,
          y.pools, Dispatcher.answer (t.client i).stripsTag n r)) ∧
        t.collect client n = .ok
          (t.handed client n (Dispatcher.answer (t.client i).stripsTag n r) y) ∧
        t.reception.Collects y Q t.passed i hs' s j r := by
  unfold Traffic.collect
  rcases h.balanced.collect client n with ⟨hempty, he⟩ | ⟨i, y, hs', s, j, r, hi, ha, he, hy⟩
  · rw [t.reception.collect_of_none he, he]
    exact .inl ⟨hempty, rfl⟩
  · rw [he, ha]
    exact .inr ⟨i, y, hs', s, j, r, hi, rfl, rfl, hy⟩

theorem collect (h : t.Tracked Q) (client n : ℕ) :
    ∃ u Q', t.collect client n = .ok u ∧ u.Tracked Q' := by
  rcases h.collect_cases client n with ⟨-, he⟩ | ⟨i, y, hs', s, j, r, rfl, -, he, hy⟩
  · exact ⟨t, Q, he, h⟩
  · exact ⟨_, _, he, h.handed hy n⟩

theorem step (h : t.Tracked Q) {a : Action} (ha : t.reception.Allows a) :
    ∃ u Q', t.step a = .ok u ∧ u.Tracked Q' := by
  cases a with
  | produce p o =>
    obtain ⟨hp, hn, s, hs, ho⟩ := ha
    obtain ⟨u, new, hu, hnew, hb⟩ := h.balanced.produce hs ho hp hn
    have hs' : t.reception.session p = some s := hs
    refine ⟨_, Q, ?_, h.produced hs hnew hb⟩
    simp only [Traffic.step, Reception.step, hs', hu, ok_bind]
    rfl
  | process directory line =>
    rcases h.process directory line with he | ⟨u, Q', he, hu⟩
    · exact ⟨t, Q, by rw [Traffic.step, he]; rfl, h⟩
    · exact ⟨u, Q', by rw [Traffic.step, he]; rfl, hu⟩
  | processAll directory line => exact h.processUpTo directory line _
  | collect client n => exact h.collect client n
  | configure client setting =>
    let d := t.reception.dispatcher
    exact ⟨_, Q, rfl, h.withDispatcher (h.balanced.withDispatcher
      (d.configure_cursors client setting) (h.balanced.awaiting.configure client setting))⟩
  | setPolicy policy =>
    exact ⟨_, Q, rfl, h.withDispatcher (h.balanced.withDispatcher rfl h.balanced.awaiting)⟩
  | setLink line link speed =>
    let d := t.reception.dispatcher
    exact ⟨_, Q, rfl, h.withDispatcher (h.balanced.withDispatcher
      (d.setLink_cursors line link speed) (h.balanced.awaiting.setLink line link speed))⟩

theorem begin (policy : Policy) {pools : PoolPair} (hlow : pools.low.Fresh .low)
    (hhigh : ∀ pool ∈ pools.high, pool.Fresh .high) :
    (begin clients depth policy pools).Tracked fun _ => [] where
  balanced := Reception.Balanced.fresh policy hlow hhigh
  length_eq _ := rfl
  unread _ _ _ := rfl
  genuine _ _ he := absurd he List.not_mem_nil
  framed _ _ he := absurd he List.not_mem_nil
  ordered _ := .nil
  traced _ := ⟨[], [], rfl, .nil, .nil⟩

end Tracked

theorem Reached.tracked {start : Traffic clients depth} (ht : Reached start t)
    (h : start.Tracked Q) : ∃ Q', t.Tracked Q' := by
  refine Run.invariant (P := fun u => ∃ Q', u.Tracked Q') ht ⟨Q, h⟩ fun u a v ⟨Q', hu⟩ ha hs => ?_
  obtain ⟨w, Q'', hw, htracked⟩ := hu.step ha
  obtain rfl := Except.ok.inj (hw.symm.trans hs)
  exact ⟨Q'', htracked⟩

end Traffic

end EtherBuffer.Ingress
