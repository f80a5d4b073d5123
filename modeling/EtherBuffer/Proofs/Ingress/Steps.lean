import EtherBuffer.Proofs.Ingress.Classify

/-! What is done at the receive side keeps queues and sharers in balance. -/
namespace EtherBuffer.Ingress

open Link

variable {clients depth : ℕ}

theorem Client.addEtherType_queue {c c' : Client depth} {etherType : UInt16}
    (h : c.addEtherType etherType = .ok c') : c'.queue = c.queue := by
  unfold Client.addEtherType at h
  split_ifs at h
  · rw [← Except.ok.inj h]
  · rw [← Except.ok.inj h]

theorem Setting.apply_queue {c : Client depth} {setting : Setting} {answer : Client depth × Unit}
    (h : setting.apply c = .ok answer) : answer.1.queue = c.queue := by
  cases setting with
  | addEtherType etherType =>
    change Except.map (·, ()) (c.addEtherType etherType) = _ at h
    cases hc : c.addEtherType etherType with
    | error e =>
      rw [hc] at h
      cases h
    | ok c' =>
      rw [hc] at h
      obtain rfl := Except.ok.inj h
      exact Client.addEtherType_queue hc
  | removeEtherType etherType =>
    obtain rfl := Except.ok.inj h
    rfl
  | clearEtherTypes =>
    obtain rfl := Except.ok.inj h
    rfl
  | stripTag strips =>
    obtain rfl := Except.ok.inj h
    rfl
  | enableNotice =>
    obtain rfl := Except.ok.inj h
    unfold Client.enableNotice
    split_ifs <;> rfl
  | disableNotice =>
    obtain rfl := Except.ok.inj h
    rfl
  | takeNotice =>
    obtain rfl := Except.ok.inj h
    unfold Client.takeNotice
    split_ifs <;> rfl

namespace Dispatcher

theorem configure_cases (d : Dispatcher clients depth) (client : ℕ) (setting : Setting) :
    d.configure client setting = d ∨ ∃ i c, d.configure client setting = d.setClient i c ∧
      c.queue = (d.clients.get i).queue := by
  unfold Dispatcher.configure updateClient
  by_cases hc : client < clients
  · rw [dif_pos hc]
    cases hs : setting.apply d.clients[client] with
    | error e => exact Or.inl rfl
    | ok answer => exact Or.inr ⟨⟨client, hc⟩, answer.1, rfl, Setting.apply_queue hs⟩
  · rw [dif_neg hc]
    exact Or.inl rfl

theorem configure_cursors (d : Dispatcher clients depth) (client : ℕ) (setting : Setting) :
    (d.configure client setting).cursors = d.cursors := by
  rcases d.configure_cases client setting with he | ⟨i, c, he, -⟩ <;> rw [he]
  rfl

theorem setLink_cursors (d : Dispatcher clients depth) (line : Line) (link : LinkState)
    (speed : Speed) : (d.setLink line link speed).1.cursors = d.cursors := by
  unfold Dispatcher.setLink
  simp only []
  split_ifs <;> rfl

theorem payloadFor_eq {s : Session} {base : ℕ} {gone held : List Receipt}
    (h : s.Sound base gone held) (hm : s.Measured) {j : ℕ} {r : Receipt}
    (hj : s.receipts[j]? = some r) (hr : r.releases = 0) (c : Client depth) (n : ℕ) :
    payloadFor c s.pool r.handle r.header n =
      .ok ((content c.stripsTag r.header.tagged r.payload).take n) := by
  unfold payloadFor content
  simp only [h.readPayload_eq hm hj hr, ok_bind]
  split_ifs
  · refine congrArg Except.ok ?_
    rw [List.take_append, List.take_take, List.drop_zero, Nat.min_comm]
    congr 1
    by_cases hlen : Frame.etherTypeOffset ≤ r.payload.length
    · rw [List.length_take_of_le hlen]
      congr 1
      omega
    · rw [List.drop_eq_nil_of_le (by omega), List.take_nil, List.take_nil]
  · rfl

variable [Positive depth] {d : Dispatcher clients depth} {Q : Fin clients → List Handle}

theorem Awaiting.configure (h : d.Awaiting Q) (client : ℕ) (setting : Setting) :
    (d.configure client setting).Awaiting Q := by
  rcases d.configure_cases client setting with he | ⟨i, c, he, hq⟩
  · rw [he]
    exact h
  · have hc : c.Awaits (Q i) := by
      unfold Client.Awaits
      rw [hq]
      exact h i
    have := h.setClient i hc
    rwa [Function.update_eq_self, ← he] at this

theorem Awaiting.setLink (h : d.Awaiting Q) (line : Line) (link : LinkState) (speed : Speed) :
    (d.setLink line link speed).1.Awaiting Q := by
  unfold Dispatcher.setLink
  simp only []
  split_ifs
  · intro i
    have hget : (d.clients.map Client.linkChanged).get i = (d.clients.get i).linkChanged :=
      Vector.getElem_map _ _
    change ((d.clients.map Client.linkChanged).get i).Awaits (Q i)
    rw [hget]
    unfold Client.linkChanged
    split_ifs <;> exact h i
  · exact h

end Dispatcher

namespace Reception

/-- The client gives up its share of the record of its oldest frame. -/
structure Collects [Positive depth] (x y : Reception clients depth) (Q : Fin clients → List Handle)
    (passed : PerPriority ℕ) (i : Fin clients) (hs' : List Handle) (s : Session) (j : ℕ)
    (r : Receipt) : Prop where
  front_eq : Q i = r.handle :: hs'
  session_eq : x.session r.handle.priority = some s
  record : s.receipts[j]? = some r
  live : r.releases = 0
  balanced : y.Balanced (Function.update Q i hs') passed
  amends : x.Amends y r.handle.priority s j r.collected

theorem collect_of_none [Positive depth] (x : Reception clients depth) {client n : ℕ}
    (h : x.dispatcher.collect client x.pools n = .ok none) : x.collect client n = .ok x := by
  rw [Reception.collect, h]
  rfl

namespace Balanced

variable [Positive depth] {x : Reception clients depth} {p : Priority} {s : Session}
  {Q : Fin clients → List Handle} {passed : PerPriority ℕ} {r : Receipt}

theorem withDispatcher (h : x.Balanced Q passed) {d : Dispatcher clients depth}
    (hc : d.cursors = x.dispatcher.cursors) (hd : d.Awaiting Q) :
    Balanced { x with dispatcher := d } Q passed where
  awaiting := hd
  nodup := h.nodup
  priority_eq := h.priority_eq
  follows := by
    intro p s hs
    rw [hc]
    exact h.follows p s hs
  shared := h.shared
  known := h.known

theorem produce (h : x.Balanced Q passed) (hs : x.session p = some s) {o : Request}
    (ho : s.Allows o) (hp : o.Produces) (hn : ¬ o.Oversized) :
    ∃ t new, s.step o = .ok t ∧ t.receipts = s.receipts ++ new ∧
      (x.setSession p t).Balanced Q passed := by
  have hf := h.follows p s hs
  obtain ⟨t, ht, hft, hprio, new, hrec⟩ := hf.produce ho hp hn
  obtain ⟨base, gone, held, hsound⟩ := hft.kept
  have hold {j : ℕ} {r : Receipt} (hj : s.receipts[j]? = some r) : t.receipts[j]? = some r := by
    rw [hrec, List.getElem?_append_left (List.getElem?_eq_some_iff.mp hj).1, hj]
  have hknown (i : Fin clients) (y : Handle) (hy : y ∈ Q i) (hyp : y.priority = p) :
      ∃ j : ℕ, ∃ r ∈ s.receipts[j]?, r.releases = 0 ∧ r.handle = y := by
    obtain ⟨j, r, ⟨u, hu, hj, hr⟩, he⟩ := h.known i y hy
    rw [hyp] at hu
    obtain rfl := Option.some.inj (hs.symm.trans hu)
    exact ⟨j, r, hj, hr, he⟩
  refine ⟨t, new, ht, hrec, ?_⟩
  rw [← passed.set_get p]
  refine h.replace hs hprio hft (x.dispatcher.cursors.set_get p).symm h.awaiting h.nodup
    (fun _ _ _ => Iff.rfl) ?_ ?_
  · intro j r hj hr
    by_cases hlt : j < s.receipts.length
    · rw [hrec, List.getElem?_append_left hlt] at hj
      exact h.shared p j r ⟨s, hs, hj, hr⟩
    · have hle := hf.le_length
      have hrp : r.handle.priority = p := by
        rw [hsound.handle_eq hj hr]
        exact hprio.trans (h.priority_eq p s hs)
      rw [if_neg (by omega), waiting_eq_zero_iff]
      -- A record that some client awaits is older, and its handle is not given again.
      intro i hi
      obtain ⟨k, w, hk, hw, he⟩ := hknown i _ hi hrp
      have hkl := (List.getElem?_eq_some_iff.mp hk).1
      exact hsound.handle_ne (hold hk) hw (by omega) hj he.symm
  · intro i y hy hyp
    obtain ⟨j, r, hj, hr, he⟩ := hknown i y hy hyp
    exact ⟨j, r, hold hj, hr, he⟩

theorem front_eq (h : x.Balanced Q passed) (i : Fin clients) : x.front i = (Q i).head? := by
  have hget : x.dispatcher.client? i.val = some (x.dispatcher.clients.get i) :=
    Vector.getElem?_eq_getElem i.isLt
  rw [Reception.front, hget, Option.bind_some, (h.awaiting i).peek_eq]

theorem exists_awaited (h : x.Balanced Q passed) {client : ℕ}
    (hr : (x.dispatcher.client? client).any Client.isReady = true) :
    ∃ i : Fin clients, i.val = client ∧ Q i ≠ [] := by
  by_cases hc : client < clients
  · let i : Fin clients := ⟨client, hc⟩
    have hget : x.dispatcher.client? client = some (x.dispatcher.clients.get i) :=
      Vector.getElem?_eq_getElem hc
    refine ⟨i, rfl, fun hnil => ?_⟩
    rw [hget, Option.any_some, Client.isReady, (h.awaiting i).peek_eq, hnil] at hr
    cases hr
  · rw [Dispatcher.client?, Vector.getElem?_eq_none (Nat.not_lt.mp hc)] at hr
    cases hr

theorem take (h : x.Balanced Q passed) (hs : x.session p = some s) {j : ℕ}
    (hj : s.receipts[j]? = some r) (hr : r.releases = 0) {i : Fin clients} {hs' : List Handle}
    (hQ : Q i = r.handle :: hs') {c : Client depth} (hc : c.Awaits hs') {pool : Pool} {lo hi : ℕ}
    (hst : s.pool.Steady pool lo hi)
    (hk : Session.Kept { s with pool, receipts := s.receipts.set j r.collected }) :
    Balanced { x with
      dispatcher := x.dispatcher.setClient i c
      pools := x.pools.set p pool
      receipts := x.receipts.set p (s.receipts.set j r.collected) } (Function.update Q i hs')
        passed := by
  have hnd := h.nodup i
  rw [hQ] at hnd
  obtain ⟨hnot, hnd⟩ := List.nodup_cons.mp hnd
  -- This queue accounts for one share, and so the record was passed.
  have hwait := waiting_tail hQ hnot
  have hshare := h.shared p j r ⟨s, hs, hj, hr⟩
  have hjlt : j < passed.get p := by
    by_contra hge
    rw [if_neg hge] at hshare
    omega
  rw [if_pos hjlt, hwait] at hshare
  have hf := (h.follows p s hs).change hj hjlt hst hk r.collected_handle r.collected_payload
    r.collected_length
  rw [← passed.set_get p]
  refine h.change hs hj hr hst.priority_eq hf r.collected_handle (fun _ _ => Iff.rfl)
    (x.dispatcher.cursors.set_get p).symm (h.awaiting.setClient i hc) ?_ ?_ ?_ ?_
  · intro k
    rw [Function.update_apply]
    split_ifs
    · exact hnd
    · exact h.nodup k
  · intro y hy k
    by_cases hk : k = i
    · subst hk
      rw [Function.update_self, hQ]
      simp [hy]
    · rw [Function.update_of_ne hk]
  · intro hz
    have hsharers := Receipt.collected_sharers hz
    rw [if_pos hjlt]
    omega
  · intro hz
    have hsharers := Receipt.collected_releases hr hz
    omega

theorem collect (h : x.Balanced Q passed) (client n : ℕ) :
    (∀ i : Fin clients, i.val = client → Q i = []) ∧
        x.dispatcher.collect client x.pools n = .ok none ∨
      ∃ (i : Fin clients) (y : Reception clients depth) (hs' : List Handle) (s : Session) (j : ℕ)
        (r : Receipt), i.val = client ∧
        x.dispatcher.collect client x.pools n = .ok (some (y.dispatcher, y.pools,
          Dispatcher.answer (x.dispatcher.clients.get i).stripsTag n r)) ∧
        x.collect client n = .ok y ∧ x.Collects y Q passed i hs' s j r := by
  by_cases hc : client < clients
  · let i : Fin clients := ⟨client, hc⟩
    have hpeek : x.dispatcher.clients[client].queue.peek = (Q i).head? := (h.awaiting i).peek_eq
    have hfront : x.front client = (Q i).head? := h.front_eq i
    rw [Reception.collect, hfront, Dispatcher.collect, dif_pos hc]
    simp only [hpeek]
    cases hQ : Q i with
    | nil => exact .inl ⟨fun k hk => (congrArg Q (Fin.ext hk)).trans hQ, rfl⟩
    | cons y hs' =>
      obtain ⟨j, r, ⟨s, hs, hj, hr⟩, rfl⟩ := h.known i y (by rw [hQ]; exact List.mem_cons_self)
      obtain ⟨base, gone, held, hsound⟩ := (h.follows _ s hs).kept
      have haw := h.awaiting i
      rw [hQ] at haw
      obtain ⟨queue, hqueue, haw'⟩ := haw.collect
      obtain ⟨pool, hpool, hst, hk⟩ := hsound.release hj hr
      have hbytes := Dispatcher.payloadFor_eq hsound (h.follows _ s hs).measured hj hr
        (x.dispatcher.clients.get i) n
      have hb := h.take hs hj hr hQ haw' hst hk
      rw [← h.amend_eq hs hj hr] at hb
      have hget : x.dispatcher.clients[client] = x.dispatcher.clients.get i := rfl
      let d := x.dispatcher.setClient i { x.dispatcher.clients.get i with queue }
      simp only [List.head?_cons, (session_eq_some_iff.mp hs).1, hsound.header_eq hj hr, ok_bind,
        hget, hbytes, hqueue, hpool]
      exact .inr ⟨i, _, hs', s, j, r, rfl, rfl, rfl, hQ, hs, hj, hr, hb, d, pool,
        by rw [h.amend_eq hs hj hr]⟩
  · rw [Dispatcher.collect, dif_neg hc]
    exact .inl ⟨fun i hi => absurd (hi ▸ i.isLt) hc, rfl⟩

theorem processUpTo (h : x.Balanced Q passed) (directory : Directory) (line : Line) (n : ℕ) :
    ∃ y Q' passed', x.processUpTo directory line n = .ok y ∧ y.Balanced Q' passed' := by
  induction n generalizing x Q passed with
  | zero => exact ⟨x, Q, passed, rfl, h⟩
  | succ n ih =>
    unfold Reception.processUpTo
    rcases h.process directory line with ⟨-, he⟩ | ⟨y, Q', p, s, r, r', he, -, -, -, hy⟩
    · exact ⟨x, Q, passed, by rw [he]; rfl, h⟩
    · rw [he]
      exact ih hy.balanced

/-- Every action that the rules allow succeeds and keeps the balance. -/
theorem step (h : x.Balanced Q passed) {a : Action} (ha : x.Allows a) :
    ∃ y Q' passed', x.step a = .ok y ∧ y.Balanced Q' passed' := by
  cases a with
  | produce p o =>
    obtain ⟨hp, hn, s, hs, ho⟩ := ha
    obtain ⟨t, new, ht, -, hb⟩ := h.produce hs ho hp hn
    refine ⟨_, Q, passed, ?_, hb⟩
    have hs' : x.session p = some s := hs
    simp only [Reception.step, hs', ht, ok_bind]
    rfl
  | process directory line =>
    rcases h.process directory line with ⟨-, he⟩ | ⟨y, Q', p, s, r, r', he, -, -, -, hy⟩
    · exact ⟨x, Q, passed, by rw [Reception.step, he]; rfl, h⟩
    · exact ⟨y, Q', _, by rw [Reception.step, he]; rfl, hy.balanced⟩
  | processAll directory line => exact h.processUpTo directory line _
  | collect client n =>
    rcases h.collect client n with ⟨-, he⟩ | ⟨i, y, hs', s, j, r, -, -, he, hy⟩
    · exact ⟨x, Q, passed, x.collect_of_none he, h⟩
    · exact ⟨y, _, passed, he, hy.balanced⟩
  | configure client setting =>
    exact ⟨_, Q, passed, rfl, h.withDispatcher (x.dispatcher.configure_cursors client setting)
      (h.awaiting.configure client setting)⟩
  | setPolicy policy => exact ⟨_, Q, passed, rfl, h.withDispatcher rfl h.awaiting⟩
  | setLink line link speed =>
    exact ⟨_, Q, passed, rfl, h.withDispatcher (x.dispatcher.setLink_cursors line link speed)
      (h.awaiting.setLink line link speed)⟩

theorem reached {y : Reception clients depth} (hy : Reached x y) (h : x.Balanced Q passed) :
    ∃ Q' passed', y.Balanced Q' passed' := by
  induction hy with
  | start => exact ⟨Q, passed, h⟩
  | step a _ ha hs ih =>
    obtain ⟨Q', passed', hb⟩ := ih
    obtain ⟨z, Q'', passed'', hz, hb'⟩ := hb.step ha
    rw [hs] at hz
    obtain rfl := Except.ok.inj hz
    exact ⟨Q'', passed'', hb'⟩

end Balanced

end Reception

end EtherBuffer.Ingress
