import EtherBuffer.Proofs.Filter.Content

/-! Entries that change where they are. -/
namespace EtherBuffer.Filter

def Hit.Matches (hit : Hit) (client : ℕ) (high : Bool) : Prop :=
  hit.recipients.isHigh = high ∧ client ∈ hit.recipients.clients

instance (hit : Hit) (client : ℕ) (high : Bool) : Decidable (hit.Matches client high) :=
  inferInstanceAs (Decidable (_ ∧ _))

/-- What is left when a client is removed from a class. -/
def Hit.drop (client : ℕ) (high : Bool) (hit : Hit) : Option Hit :=
  if hit.Matches client high then
    if hit.recipients.clients.erase client = ∅ then none
    else some { hit with recipients := hit.recipients.erase client }
  else some hit

theorem Hit.drop_nonempty {hit hit' : Hit} {client : ℕ} {high : Bool}
    (h : hit.drop client high = some hit')
    (hc : hit.recipients.clients.Nonempty) : hit'.recipients.clients.Nonempty := by
  unfold drop at h
  split_ifs at h with hm he
  · cases h
    rw [Recipients.clients_erase]
    exact Finset.nonempty_iff_ne_empty.mpr he
  · cases h
    exact hc

namespace Table

def revise (f : Key → Hit → Option Hit) (e : Entry) : Option Entry :=
  (f e.key e.hit).map fun hit => ⟨e.key, hit⟩

section
variable {n : ℕ} {t t' : Table n} {i : Fin n} {e e' : Entry} {f : Key → Hit → Option Hit}
  {client : ℕ} {high : Bool}

theorem revise_eq_some_iff : revise f e = some e' ↔ e.key = e'.key ∧ f e'.key e.hit = some e'.hit := by
  obtain ⟨k, hit⟩ := e
  obtain ⟨k', hit'⟩ := e'
  simp only [revise, Option.map_eq_some_iff, Entry.mk.injEq]
  constructor
  · rintro ⟨hit', hf, rfl, rfl⟩
    exact ⟨rfl, hf⟩
  · rintro ⟨rfl, hf⟩
    exact ⟨hit', hf, rfl, rfl⟩

theorem entries_revise (hs : t'.slots = t.slots.map (·.bind (revise f))) :
    t'.entries = t.entries.filterMap (revise f) := by
  simp only [entries, toList, hs, Vector.toList_map, List.filterMap_map, Multiset.filterMap_coe,
    List.filterMap_filterMap]
  rfl

theorem map_key_revise_le (s : Multiset Entry) :
    (s.filterMap (revise f)).map (·.key) ≤ s.map (·.key) := by
  induction s using Multiset.induction with
  | empty => simp
  | cons e s ih =>
    cases he : revise f e with
    | none =>
      rw [Multiset.filterMap_cons_none _ _ he, Multiset.map_cons]
      exact ih.trans (Multiset.le_cons_self _ _)
    | some e' =>
      rw [Multiset.filterMap_cons_some _ _ _ he, Multiset.map_cons, Multiset.map_cons,
        (revise_eq_some_iff.mp he).1]
      exact Multiset.cons_le_cons _ ih

theorem withoutClient_of_not (h : ¬ e.hit.Matches client high) :
    withoutClient e client high = none := by
  unfold withoutClient
  rw [if_neg]
  rw [Recipients.has_eq_decide]
  simpa [Hit.Matches] using h

theorem withoutClient_of_matches (h : e.hit.Matches client high) :
    withoutClient e client high =
      some ⟨e.key, { e.hit with recipients := e.hit.recipients.erase client }⟩ := by
  unfold withoutClient
  rw [if_pos]
  rw [Recipients.has_eq_decide]
  simpa [Hit.Matches] using h

theorem reduceSlot_of_not (h : ∀ e, t.slots.get i = some e → ¬ e.hit.Matches client high) :
    t.reduceSlot i client high = none := by
  unfold reduceSlot
  cases hi : t.slots.get i with
  | none => rfl
  | some e => rw [Option.bind_some, withoutClient_of_not (h e hi), Option.map_none]

theorem reduceSlot_of_matches (hi : t.slots.get i = some e) (hm : e.hit.Matches client high) :
    ∃ t', t.reduceSlot i client high = some t' ∧
      t'.slots = (t.put i ((e.hit.drop client high).map fun hit => ⟨e.key, hit⟩)).slots ∧
      t'.firstPoly = t.firstPoly ∧ t'.secondPoly = t.secondPoly ∧
      (t.size = t.entries.card → t'.size = t'.entries.card) := by
  have hput (x : Option Entry) : (t.put i x).entries.card + 1 = t.entries.card + x.toList.length := by
    have := congrArg Multiset.card (entries_put t i x)
    rw [hi] at this
    simpa using this
  unfold reduceSlot Hit.drop putReduced
  rw [hi, Option.bind_some, withoutClient_of_matches hm, Option.map_some, if_pos hm]
  simp only [Recipients.isEmpty_eq, Recipients.clients_erase, decide_eq_true_eq]
  by_cases he : e.hit.recipients.clients.erase client = ∅
  · have := hput none
    rw [if_pos he, if_pos he]
    refine ⟨_, rfl, rfl, rfl, rfl, fun hs => ?_⟩
    change t.size - 1 = (t.put i none).entries.card
    simp only [Option.toList_none, List.length_nil, add_zero] at this
    omega
  · have := hput (some ⟨e.key, { e.hit with recipients := e.hit.recipients.erase client }⟩)
    rw [if_neg he, if_neg he]
    refine ⟨_, rfl, rfl, rfl, rfl, fun hs => ?_⟩
    change t.size = (t.put i _).entries.card
    simp only [Option.toList_some, List.length_singleton] at this
    omega

def clearStep (client : ℕ) (high : Bool) (s : Table n × ℕ) (i : Fin n) : Table n × ℕ :=
  match s.1.reduceSlot i client high with
  | some t => (t, s.2 + 1)
  | none => s

/-- What the removal of a client from the entries in some slots makes of a table and a count. -/
structure Swept (client : ℕ) (high : Bool) (l : List (Fin n)) (s s' : Table n × ℕ) : Prop where
  firstPoly_eq : s'.1.firstPoly = s.1.firstPoly
  secondPoly_eq : s'.1.secondPoly = s.1.secondPoly
  slots_eq : ∀ i : Fin n, s'.1.slots.get i = if i ∈ l then
    (s.1.slots.get i).bind (Table.revise fun _ => Hit.drop client high) else s.1.slots.get i
  size_eq : s.1.size = s.1.entries.card → s'.1.size = s'.1.entries.card
  count_eq : s'.2 = s.2 + l.countP fun i => (s.1.slots.get i).any fun e => decide (e.hit.Matches client high)

theorem clearStep_swept (client : ℕ) (high : Bool) (s : Table n × ℕ) (i : Fin n) :
    Swept client high [i] s (clearStep client high s i) := by
  obtain ⟨t, c⟩ := s
  unfold clearStep
  by_cases h : ∃ e, t.slots.get i = some e ∧ e.hit.Matches client high
  · obtain ⟨e, hi, hm⟩ := h
    obtain ⟨t', ht', hs, h₁, h₂, hsize⟩ := reduceSlot_of_matches hi hm
    rw [ht']
    refine ⟨h₁, h₂, fun j => ?_, hsize, ?_⟩
    · simp only [hs, get_put, List.mem_singleton]
      by_cases hij : i = j
      · subst hij
        rw [if_pos rfl, if_pos rfl, hi]
        rfl
      · rw [if_neg hij, if_neg (Ne.symm hij)]
    · rw [List.countP_singleton, hi]
      simp [hm]
  · push Not at h
    rw [reduceSlot_of_not h]
    refine ⟨rfl, rfl, fun j => ?_, id, ?_⟩
    · simp only [List.mem_singleton]
      split_ifs with hij
      · subst hij
        cases hj : t.slots.get j with
        | none => rfl
        | some e => simp [Table.revise, Hit.drop, h e hj]
      · rfl
    · rw [List.countP_singleton]
      cases hi : t.slots.get i with
      | none => rfl
      | some e => simp [h e hi]

theorem foldl_clearStep_swept {l : List (Fin n)} (hl : l.Nodup) (s : Table n × ℕ) :
    Swept client high l s (l.foldl (clearStep client high) s) := by
  induction l generalizing s with
  | nil => exact ⟨rfl, rfl, fun j => by simp, id, by simp⟩
  | cons i l ih =>
    obtain ⟨hi, hl⟩ := List.nodup_cons.mp hl
    have h₁ := clearStep_swept client high s i
    have h₂ := ih hl (clearStep client high s i)
    rw [List.foldl_cons]
    refine ⟨?_, ?_, fun j => ?_, fun hs => h₂.size_eq (h₁.size_eq hs), ?_⟩
    · rw [h₂.firstPoly_eq, h₁.firstPoly_eq]
    · rw [h₂.secondPoly_eq, h₁.secondPoly_eq]
    · rw [h₂.slots_eq, h₁.slots_eq]
      by_cases hj : j = i
      · subst hj
        simp [hi]
      · simp [hj]
    · have hc : (l.countP fun j => ((clearStep client high s i).1.slots.get j).any fun e =>
            decide (e.hit.Matches client high)) =
          l.countP fun j => (s.1.slots.get j).any fun e => decide (e.hit.Matches client high) := by
        apply List.countP_congr
        intro j hj
        have hne : j ≠ i := fun hji => hi (hji ▸ hj)
        rw [h₁.slots_eq, if_neg (by simpa using hne)]
      rw [h₂.count_eq, h₁.count_eq, hc, List.countP_cons (l := l), List.countP_singleton]
      omega

theorem countP_slots (p : Entry → Bool) :
    ((List.finRange n).countP fun i => (t.slots.get i).any p) = t.entries.countP fun e => p e := by
  have hl : t.slots.toList = (List.finRange n).map fun i => t.slots.get i := by
    apply List.ext_getElem
    · simp
    · intro i _ _
      rw [List.getElem_map, List.getElem_finRange, Vector.getElem_toList]
      rfl
  have hc (l : List (Option Entry)) :
      (l.filterMap id).countP p = l.countP fun x => x.any p := by
    induction l with
    | nil => rfl
    | cons x l ih =>
      cases x with
      | none =>
        rw [List.filterMap_cons_none rfl, ih, List.countP_cons]
        rfl
      | some e =>
        have : (some e :: l).filterMap id = e :: l.filterMap id := rfl
        rw [this, List.countP_cons, List.countP_cons, ih]
        rfl
  rw [entries, toList, Multiset.coe_countP, hl]
  simp only [Bool.decide_eq_true, hc, List.countP_map]
  rfl

end

section
variable {n : ℕ} [Positive n] {t t' : Table n} {i : Fin n} {e e' : Entry} {k : Key}
  {f : Key → Hit → Option Hit} {client : ℕ} {high : Bool}

namespace Valid

theorem revise (h : t.Valid) (hs : t'.slots = t.slots.map (·.bind (revise f)))
    (h₁ : t'.firstPoly = t.firstPoly) (h₂ : t'.secondPoly = t.secondPoly)
    (hsize : t'.size = t'.entries.card)
    (hf : ∀ k hit hit', f k hit = some hit' → hit.recipients.clients.Nonempty →
      hit'.recipients.clients.Nonempty) :
    t'.Valid ∧ ∀ k, t'.lookup k = (t.lookup k).bind (f k) := by
  have hm {e' : Entry} (he : e' ∈ t'.entries) :
      ∃ hit, ⟨e'.key, hit⟩ ∈ t.entries ∧ f e'.key hit = some e'.hit := by
    rw [entries_revise hs, Multiset.mem_filterMap] at he
    obtain ⟨⟨k, hit⟩, he, hr⟩ := he
    obtain ⟨rfl, hr⟩ := revise_eq_some_iff.mp hr
    exact ⟨hit, he, hr⟩
  have h' : t'.Valid := by
    refine ⟨⟨?_, ?_, ?_⟩, ?_, hsize, by rw [h₁, h₂]; exact h.polys_ne⟩
    · rw [entries_revise hs]
      exact Multiset.nodup_of_le (map_key_revise_le _) h.proper.unique
    · intro e he
      obtain ⟨hit, he, -⟩ := hm he
      exact h.proper.key_ne ⟨e.key, hit⟩ he
    · intro e he
      obtain ⟨hit, he, hr⟩ := hm he
      exact hf e.key hit e.hit hr (h.proper.clients_nonempty ⟨e.key, hit⟩ he)
    · intro i e hi
      rw [hs, get_map] at hi
      obtain ⟨⟨k, hit⟩, hi, hr⟩ := Option.bind_eq_some_iff.mp hi
      obtain ⟨rfl, -⟩ := revise_eq_some_iff.mp hr
      obtain ⟨c, hc⟩ := h.placed i _ hi
      exact ⟨c, by rw [hc, index_congr h₁ h₂]⟩
  refine ⟨h', fun k => ?_⟩
  ext hit'
  rw [h'.lookup_eq_some_iff, Option.bind_eq_some_iff]
  constructor
  · intro he
    obtain ⟨hit, he, hr⟩ := hm he
    exact ⟨hit, h.lookup_eq_some_iff.mpr he, hr⟩
  · rintro ⟨hit, hl, hr⟩
    rw [entries_revise hs, Multiset.mem_filterMap]
    exact ⟨⟨k, hit⟩, h.lookup_eq_some_iff.mp hl, revise_eq_some_iff.mpr ⟨rfl, hr⟩⟩

theorem slots_set (h : t.Valid) {g : Hit → Option Hit} (hi : t.slots.get i = some e) :
    (t.put i ((g e.hit).map fun hit => ⟨e.key, hit⟩)).slots =
      t.slots.map (·.bind (Table.revise fun k hit => if k = e.key then g hit else some hit)) := by
  apply slots_ext
  intro j
  have hg : ((g e.hit).map fun hit => (⟨e.key, hit⟩ : Entry)) =
      Table.revise (fun k hit => if k = e.key then g hit else some hit) e := by
    simp [Table.revise]
  rw [get_map, get_put, hg]
  split_ifs with hij
  · subst hij
    rw [hi, Option.bind_some]
  · cases hj : t.slots.get j with
    | none => rfl
    | some x =>
      have hx : x.key ≠ e.key := fun hk => hij (h.slot_eq hi hj hk.symm)
      simp [Table.revise, hx]

theorem delete_of_not (h : t.Valid)
    (hn : ∀ hit, t.lookup k = some hit → ¬ hit.Matches client high) :
    t.delete k client high = none := by
  unfold delete
  cases hf : t.find? k with
  | none => rfl
  | some i =>
    obtain ⟨hit, hi⟩ := h.find?_eq_some_iff.mp hf
    have hl := h.lookup_eq_some_iff.mpr (mem_entries.mpr ⟨i, hi⟩)
    rw [Option.bind_some]
    apply reduceSlot_of_not
    intro e he
    obtain rfl : ⟨k, hit⟩ = e := Option.some.inj (hi.symm.trans he)
    exact hn hit hl

theorem delete_of_matches {hit : Hit} (h : t.Valid) (hl : t.lookup k = some hit)
    (hm : hit.Matches client high) :
    ∃ t', t.delete k client high = some t' ∧ t'.Valid ∧ ∀ k', t'.lookup k' =
      (t.lookup k').bind fun hit => if k' = k then hit.drop client high else some hit := by
  obtain ⟨i, hi⟩ := mem_entries.mp (h.lookup_eq_some_iff.mp hl)
  obtain ⟨t', ht', hs, h₁, h₂, hsize⟩ := reduceSlot_of_matches hi hm
  refine ⟨t', ?_, ?_⟩
  · unfold delete
    rw [h.find?_eq_some_iff.mpr ⟨hit, hi⟩, Option.bind_some, ht']
  · rw [h.slots_set hi] at hs
    apply h.revise hs h₁ h₂ (hsize h.size_eq)
    intro k' hit hit' hd hc
    dsimp only at hd
    split_ifs at hd
    · exact Hit.drop_nonempty hd hc
    · exact Option.some.inj hd ▸ hc

theorem clearClient_spec (h : t.Valid) (client : ℕ) (high : Bool) :
    (t.clearClient client high).1.Valid ∧
      (∀ k, (t.clearClient client high).1.lookup k = (t.lookup k).bind (Hit.drop client high)) ∧
      (t.clearClient client high).2 =
        {k | ∃ hit, t.lookup k = some hit ∧ hit.Matches client high}.ncard ∧
      ((t.clearClient client high).2 = 0 →
        ∀ k hit, t.lookup k = some hit → ¬ hit.Matches client high) := by
  have hw : Swept client high (List.finRange n) (t, 0) (t.clearClient client high) :=
    foldl_clearStep_swept (List.nodup_finRange n) (t, 0)
  have hs : (t.clearClient client high).1.slots =
      t.slots.map (·.bind (Table.revise fun _ => Hit.drop client high)) := by
    apply slots_ext
    intro i
    rw [hw.slots_eq, if_pos (List.mem_finRange i), get_map]
  obtain ⟨hv, hl⟩ := h.revise hs hw.firstPoly_eq hw.secondPoly_eq (hw.size_eq h.size_eq)
    fun k hit hit' => Hit.drop_nonempty
  have hc : (t.clearClient client high).2 =
      t.entries.countP fun e => e.hit.Matches client high := by
    rw [hw.count_eq, countP_slots, zero_add]
    simp only [decide_eq_true_eq]
  refine ⟨hv, hl, hc.trans (h.ncard_eq fun e => e.hit.Matches client high).symm, ?_⟩
  intro hz k hit hk
  rw [hc, Multiset.countP_eq_zero] at hz
  exact hz _ (h.lookup_eq_some_iff.mp hk)

end Valid

end

end Table

end EtherBuffer.Filter
