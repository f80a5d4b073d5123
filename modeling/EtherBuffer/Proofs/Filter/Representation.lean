import EtherBuffer.Proofs.Filter.Collision

/-! How a table keeps its entries: each key once, in one of the two slots where it is looked for. -/
namespace EtherBuffer.Filter

namespace Table
variable {n : ℕ} [Positive n] {t t' : Table n} {k : Key} {client : ℕ} {high : Bool}

/-- An addition has the entries of the table at hand in another such table. -/
inductive Reached : Table n → Prop
  | empty : Reached (.empty n)
  | add {t s : Table n} {client : ℕ} {r : Recipients} (high : Bool) (k : Key) (appData : UInt32) :
      Reached t → Reached s → s.entries = t.entries → Recipients.single client = .ok r →
        Reached (t.add s ⟨k, ⟨r.withHigh high, appData⟩⟩).1
  | delete {t t' : Table n} (k : Key) (client : ℕ) (high : Bool) :
      Reached t → t.delete k client high = some t' → Reached t'
  | clearClient {t : Table n} (client : ℕ) (high : Bool) :
      Reached t → Reached (t.clearClient client high).1

theorem clients_of_single {r : Recipients} (hr : Recipients.single client = .ok r) (high : Bool) :
    (r.withHigh high).clients.Nonempty := by
  unfold Recipients.single at hr
  split_ifs at hr with hc
  obtain rfl := Except.ok.inj hr
  rw [Recipients.clients_single hc]
  exact Finset.singleton_nonempty client

theorem Valid.delete (h : t.Valid) (hd : t.delete k client high = some t') : t'.Valid := by
  by_cases hm : ∃ hit, t.lookup k = some hit ∧ hit.Matches client high
  · obtain ⟨hit, hl, hm⟩ := hm
    obtain ⟨u, hu, hv, -⟩ := h.delete_of_matches hl hm
    obtain rfl := Option.some.inj (hu.symm.trans hd)
    exact hv
  · push Not at hm
    rw [h.delete_of_not hm] at hd
    cases hd

theorem Reached.valid (h : t.Reached) : t.Valid := by
  induction h with
  | empty => exact valid_empty
  | @add t s client r high k appData _ _ hse hr ht hs =>
    have hc := clients_of_single hr high
    obtain ⟨-, ha⟩ | ⟨-, -, u, rfl | rfl, ha⟩ | ⟨u, refilled, ha, -, hu, -⟩ :=
      ht.add_from_spec (e := ⟨k, ⟨r.withHigh high, appData⟩⟩) hse hc
    · rw [ha]
      exact ht
    · rw [ha]
      exact ht
    · rw [ha]
      exact hs
    · rw [ha]
      exact hu
  | delete k client high _ hd ht => exact ht.delete hd
  | clearClient client high _ ht => exact (ht.clearClient_spec client high).1

omit [Positive n] in
theorem countP_occupied (t : Table n) :
    ((List.finRange n).countP fun i => (t.slots.get i).isSome) = t.entries.card := by
  have hall := countP_slots (t := t) fun _ => true
  simp only [Option.any_true] at hall
  exact hall.trans (Multiset.countP_eq_card.mpr fun _ _ => trivial)

/-- The two ways of looking for a key find the same entry. -/
theorem Valid.lookup_eq_find? (h : t.Valid) (k : Key) :
    t.lookup k = ((t.find? k).bind t.slots.get).map (·.hit) := by
  cases hf : t.find? k with
  | none => exact h.lookup_eq_none_iff.mpr (h.find?_eq_none_iff.mp hf)
  | some i =>
    obtain ⟨hit, hi⟩ := h.find?_eq_some_iff.mp hf
    rw [Option.bind_some, hi]
    exact h.lookup_eq_some_iff.mpr (mem_entries.mpr ⟨i, hi⟩)

/-- No key has two entries, the size is the number of the occupied slots, and lookup and update find the
same entry. -/
theorem Reached.represents (h : t.Reached) :
    (∀ i e, t.slots.get i = some e → e.key ≠ .zero ∧
      (i = t.index .first e.key ∨ i = t.index .second e.key) ∧
      e.hit.recipients.isEmpty = false) ∧
    (∀ i j e e', t.slots.get i = some e → t.slots.get j = some e' → e.key = e'.key → i = j) ∧
    t.size = (List.finRange n).countP (fun i => (t.slots.get i).isSome) ∧
    t.size = t.toList.length ∧ t.size ≤ n ∧ t.firstPoly ≠ t.secondPoly ∧
    ∀ k, t.lookup k = ((t.find? k).bind t.slots.get).map (·.hit) := by
  have hv := h.valid
  have hcard := hv.size_eq
  refine ⟨fun i e hi => ?_, fun i j e e' hi hj => hv.slot_eq hi hj,
    hcard.trans (countP_occupied t).symm, hcard, hcard.trans_le (card_entries_le t), hv.polys_ne,
    hv.lookup_eq_find?⟩
  · have he := mem_entries.mpr ⟨i, hi⟩
    refine ⟨hv.proper.key_ne e he, ?_, ?_⟩
    · obtain ⟨c, hc⟩ := hv.placed i e hi
      cases c with
      | first => exact .inl hc
      | second => exact .inr hc
    · rw [Recipients.isEmpty_eq]
      exact decide_eq_false (hv.proper.clients_nonempty e he).ne_empty

/-- The third of three addresses fills a table of four slots anew. -/
theorem Reached.represents_refilled :
    let key (a : UInt8) : Key := .ofAddress ⟨#v[2, 0, 0, 0, 0, a]⟩
    let grow (t : Table 4) (a : UInt8) : Table 4 × Except FilterError Bool :=
      t.add t ⟨key a, ⟨.withHigh ⟨Recipients.clientBit 0⟩ false, 0⟩⟩
    let t := (grow (grow (.empty 4) 1).1 6).1
    (grow t 12).2 = .ok true ∧ ∃ u, (grow t 12).1.delete (key 6) 0 false = some u ∧ u.Reached ∧
      u.size = 2 ∧ u.toList.length = 2 ∧ u.firstPoly ≠ t.firstPoly ∧ u.firstPoly ≠ u.secondPoly ∧
      u.lookup (key 12) = ((u.find? (key 12)).bind u.slots.get).map (·.hit) := by
  intro key grow t
  have hzero : Recipients.single 0 = .ok ⟨Recipients.clientBit 0⟩ := rfl
  have hgrow (t : Table 4) (ht : t.Reached) (a : UInt8) : (grow t a).1.Reached :=
    ht.add false (key a) 0 ht rfl hzero
  have ht : (grow t 12).1.Reached := hgrow _ (hgrow _ (hgrow _ .empty 1) 6) 12
  have hrun : ((grow t 12).1.delete (key 6) 0 false).map (fun u =>
      (u.size, decide (u.firstPoly ≠ t.firstPoly))) = some (2, true) := by
    decide +kernel
  obtain ⟨u, hu, he⟩ := Option.map_eq_some_iff.mp hrun
  obtain ⟨hsize, hpoly⟩ := Prod.mk.inj he
  have hreached := ht.delete (key 6) 0 false hu
  obtain ⟨-, -, -, hlength, -, hne, hagree⟩ := hreached.represents
  exact ⟨by decide +kernel, u, hu, hreached, hsize, hlength.symm.trans hsize,
    of_decide_eq_true hpoly, hne, hagree (key 12)⟩

end Table

namespace AddressFilter
variable {n : ℕ} [Positive n] {f : AddressFilter n} {t : Table n} {m : Registry}

theorem Mirrors.step_reached (h : f.Mirrors t) (ht : t.Reached) (a : Action) :
    ∃ t', (f.step a).1.Mirrors t' ∧ t'.Reached := by
  cases a with
  | configure threads =>
    rw [step, configure]
    split_ifs <;> exact ⟨t, ⟨h.left_eq, h.right_eq⟩, ht⟩
  | claimReader slot =>
    rw [step, claimReader]
    split_ifs <;> exact ⟨t, ⟨h.left_eq, h.right_eq⟩, ht⟩
  | claimWriter =>
    rw [step, claimWriter]
    split_ifs <;> exact ⟨t, ⟨h.left_eq, h.right_eq⟩, ht⟩
  | releaseReader slot => exact ⟨t, ⟨h.left_eq, h.right_eq⟩, ht⟩
  | releaseWriter => exact ⟨t, ⟨h.left_eq, h.right_eq⟩, ht⟩
  | read slot k => exact ⟨t, h, ht⟩
  | lookup k => exact ⟨t, h, ht⟩
  | clear => exact ⟨.empty n, mirrors_publish _, .empty⟩
  | add client high r =>
    rw [step, add]
    cases hr : Recipients.single client with
    | error e => exact ⟨t, h, ht⟩
    | ok recipients =>
      have hadded := ht.add high r.key r.appData ht rfl hr
      have hc := Table.clients_of_single hr high
      dsimp only
      rw [h.active_eq, h.backup_eq]
      obtain ⟨-, ha⟩ | ⟨-, -, ha⟩ | ⟨t', refilled, ha, -⟩ :=
        ht.valid.add_spec (e := ⟨r.key, ⟨recipients.withHigh high, r.appData⟩⟩) hc
      · rw [ha]
        exact ⟨t, h.setBackup, ht⟩
      · rw [ha]
        exact ⟨t, h.setBackup, ht⟩
      · rw [ha] at hadded ⊢
        exact ⟨t', h.mirrors_added ha, hadded⟩
  | delete client high r =>
    rw [step]
    cases hd : t.delete r.key client high with
    | none =>
      rw [h.delete_eq_none hd]
      exact ⟨t, h, ht⟩
    | some t' =>
      by_cases hc : Recipients.capacity ≤ client
      · rw [delete, if_pos hc]
        exact ⟨t, h, ht⟩
      · rw [h.delete_eq_some hc hd]
        exact ⟨t', mirrors_publish t', ht.delete r.key client high hd⟩
  | clearClient client high =>
    rw [step]
    by_cases hc : Recipients.capacity ≤ client
    · rw [clearClient, if_pos hc]
      exact ⟨t, h, ht⟩
    · rcases hct : t.clearClient client high with ⟨t', _ | count⟩
      · rw [clearClient, if_neg hc, h.backup_eq, hct]
        exact ⟨t, h, ht⟩
      · have hcleared := ht.clearClient client high
        rw [hct] at hcleared
        rw [h.clearClient_eq hc hct]
        exact ⟨t', mirrors_publish t', hcleared⟩

theorem Used.mirrors_reached (h : Used f m) : ∃ t, f.Mirrors t ∧ t.Reached := by
  induction h with
  | start => exact ⟨.empty n, ⟨rfl, rfl⟩, .empty⟩
  | step a _ _ ih =>
    obtain ⟨t, hm, ht⟩ := ih
    exact hm.step_reached ht a

end AddressFilter

end EtherBuffer.Filter
