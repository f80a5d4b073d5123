import EtherBuffer.Proofs.Filter.Revision

/-! Storing entries. A chain of displacements loses at most the entry that it ends with. -/
namespace EtherBuffer.Filter

/-- What is said of a key after an addition to what was said before. -/
def Hit.join (hit : Hit) : Option Hit → Hit
  | none => hit
  | some old => ⟨old.recipients.union hit.recipients, hit.appData⟩

theorem Hit.join_nonempty {hit : Hit} (h : hit.recipients.clients.Nonempty) (old : Option Hit) :
    (hit.join old).recipients.clients.Nonempty := by
  cases old with
  | none => exact h
  | some old =>
    unfold join
    rw [Recipients.clients_union]
    exact h.inr

theorem nextPoly_injective : Function.Injective nextPoly := by
  intro x y h
  have hm : 1664525 * x = 1664525 * y := (UInt32.add_left_inj 1013904223).mp h
  have hi (z : UInt32) : 4276115653 * (1664525 * z) = z := by
    rw [← UInt32.mul_assoc, show (4276115653 : UInt32) * 1664525 = 1 by decide, UInt32.one_mul]
  rw [← hi x, hm, hi y]

namespace Table
variable {n : ℕ} [Positive n] {t t' : Table n} {e : Entry} {i : Fin n} {k : Key}

/-- The table `t'` is `t` with `e` stored, and `lost` without a slot. -/
structure Displaced (t : Table n) (e : Entry) (lost : Option Entry) (t' : Table n) : Prop where
  firstPoly_eq : t'.firstPoly = t.firstPoly
  secondPoly_eq : t'.secondPoly = t.secondPoly
  entries_eq : t'.entries + lost.toList = e ::ₘ t.entries
  size_eq : t'.size + lost.toList.length = t.size + 1
  placed : t.Placed → t'.Placed

theorem Proper.of_add {s : Multiset Entry} (l : List Entry) (h : Proper (l + s)) : Proper s := by
  induction l with
  | nil => simpa using h
  | cons e l ih =>
    rw [← Multiset.cons_coe, Multiset.cons_add] at h
    exact ih h.of_cons

theorem Placed.put (h : t.Placed) (c : Choice) (e : Entry) : (t.put (t.index c e.key) e).Placed := by
  intro j x hj
  change ∃ c, j = t.index c x.key
  rw [get_put] at hj
  split_ifs at hj with hij
  · obtain rfl : e = x := Option.some.inj hj
    exact ⟨c, hij.symm⟩
  · exact h j x hj

theorem place_of_free {c : Choice} {evicts : Bool} {steps : ℕ}
    (hi : t.slots.get (t.index c e.key) = none) :
    t.place e c evicts (steps + 1) =
      ({ t.put (t.index c e.key) (some e) with size := t.size + 1 }, true) := by
  rw [place]
  simp only [hi]

theorem place_of_taken {c : Choice} {evicts : Bool} {steps : ℕ} {old : Entry}
    (hi : t.slots.get (t.index c e.key) = some old) :
    t.place e c evicts (steps + 1) =
      if evicts then (t.put (t.index c e.key) (some e)).place old c.other true steps
      else t.place e c.other true steps := by
  rw [place]
  simp only [hi]

/-- A chain that comes to an end has stored all entries; otherwise one is left over. -/
theorem place_spec (t : Table n) (e : Entry) (c : Choice) (evicts : Bool) (steps : ℕ) :
    ∃ lost, Displaced t e lost (t.place e c evicts steps).1 ∧
      (t.place e c evicts steps).2 = lost.isNone := by
  -- In every step the entries of the table and the one in hand are the same together.
  induction steps generalizing t e c evicts with
  | zero =>
    refine ⟨some e, ⟨rfl, rfl, ?_, rfl, id⟩, rfl⟩
    rw [← Multiset.singleton_add, add_comm]
    rfl
  | succ steps ih =>
    have hput := entries_put t (t.index c e.key) (some e)
    cases hi : t.slots.get (t.index c e.key) with
    | none =>
      rw [place_of_free hi]
      refine ⟨none, ⟨rfl, rfl, ?_, rfl, fun h => h.put c e⟩, rfl⟩
      rw [hi] at hput
      rw [← Multiset.singleton_add, add_comm _ t.entries]
      exact hput
    | some old =>
      rw [place_of_taken hi]
      cases evicts with
      | false => exact ih t e c.other true
      | true =>
        obtain ⟨lost, hd, hl⟩ := ih (t.put (t.index c e.key) (some e)) old c.other true
        refine ⟨lost, ⟨hd.firstPoly_eq, hd.secondPoly_eq, ?_, hd.size_eq,
          fun h => hd.placed (h.put c e)⟩, hl⟩
        rw [hi] at hput
        calc _ = old ::ₘ (t.put (t.index c e.key) (some e)).entries := hd.entries_eq
          _ = (t.put (t.index c e.key) (some e)).entries + {old} := by
            rw [← Multiset.singleton_add, add_comm]
          _ = t.entries + {e} := hput
          _ = e ::ₘ t.entries := by rw [← Multiset.singleton_add, add_comm]

theorem Valid.insert_new {replace : Bool} (h : t.Valid) (hp : Proper (e ::ₘ t.entries))
    (hi : t.insert e replace = (t', true)) : t'.Valid ∧ t'.entries = e ::ₘ t.entries := by
  unfold insert at hi
  rw [h.find?_eq_none_iff.mpr hp.key_ne_of_cons] at hi
  obtain ⟨lost, hd, hl⟩ := place_spec t e .first false (n + chainMargin)
  dsimp only at hi
  rw [hi] at hd hl
  obtain rfl : lost = none := Option.isNone_iff_eq_none.mp hl.symm
  have he : t'.entries = e ::ₘ t.entries := by simpa using hd.entries_eq
  have hs : t'.size = t.size + 1 := by simpa using hd.size_eq
  refine ⟨⟨he ▸ hp, hd.placed h.placed, ?_, ?_⟩, he⟩
  · rw [hs, he, Multiset.card_cons, h.size_eq]
  · rw [hd.firstPoly_eq, hd.secondPoly_eq]
    exact h.polys_ne

theorem insert_polys (t : Table n) (e : Entry) (replace : Bool) :
    (t.insert e replace).1.firstPoly = t.firstPoly ∧
      (t.insert e replace).1.secondPoly = t.secondPoly := by
  unfold insert
  cases t.find? e.key with
  | none =>
    obtain ⟨lost, hd, -⟩ := place_spec t e .first false (n + chainMargin)
    exact ⟨hd.firstPoly_eq, hd.secondPoly_eq⟩
  | some i => exact ⟨rfl, rfl⟩

theorem insertAll_polys (t : Table n) (es : List Entry) :
    (t.insertAll es).1.firstPoly = t.firstPoly ∧ (t.insertAll es).1.secondPoly = t.secondPoly := by
  induction es generalizing t with
  | nil => exact ⟨rfl, rfl⟩
  | cons e es ih =>
    have hp := insert_polys t e true
    unfold insertAll
    rcases hi : t.insert e true with ⟨u, _ | _⟩
    · rw [hi] at hp
      exact hp
    · rw [hi] at hp
      have := ih u
      rw [hp.1, hp.2] at this
      exact this

theorem Valid.insertAll_spec {es : List Entry} (h : t.Valid) (hp : Proper (es + t.entries))
    (hi : t.insertAll es = (t', true)) : t'.Valid ∧ t'.entries = es + t.entries := by
  induction es generalizing t with
  | nil =>
    obtain ⟨rfl, -⟩ := Prod.mk.inj hi
    exact ⟨h, by simp⟩
  | cons e es ih =>
    have hc : ((e :: es : List Entry) : Multiset Entry) + t.entries = es + (e ::ₘ t.entries) := by
      rw [← Multiset.cons_coe, Multiset.cons_add, Multiset.add_cons]
    rw [hc] at hp ⊢
    unfold insertAll at hi
    rcases hu : t.insert e true with ⟨u, _ | _⟩
    · rw [hu] at hi
      cases hi
    · rw [hu] at hi
      obtain ⟨hv, he⟩ := h.insert_new (hp.of_add es) hu
      rw [← he] at hp ⊢
      exact ih hv hp hi

theorem valid_renewed (h : t.firstPoly ≠ t.secondPoly) : t.renewed.Valid :=
  valid_of_none (fun i => Vector.getElem_replicate i.isLt) rfl (nextPoly_injective.ne h)

theorem refill_spec {es : List Entry} {steps : ℕ} (hp : Proper (e ::ₘ (es : Multiset Entry)))
    (ht : t.firstPoly ≠ t.secondPoly) (hr : t.refill es e steps = some t') :
    t'.Valid ∧ t'.entries = e ::ₘ (es : Multiset Entry) := by
  -- An attempt that fails leaves no more than two different polynomials to the next one.
  induction steps generalizing t with
  | zero => cases hr
  | succ steps ih =>
    have hv := valid_renewed ht
    have hz : t.renewed.entries = 0 := entries_of_none fun i => Vector.getElem_replicate i.isLt
    have hpolys := insertAll_polys t.renewed es
    unfold refill at hr
    rcases hu : t.renewed.insertAll es with ⟨u, _ | _⟩
    · rw [hu] at hr hpolys
      apply ih _ hr
      rw [hpolys.1, hpolys.2]
      exact hv.polys_ne
    · rw [hu] at hr
      obtain ⟨hvu, hue⟩ := hv.insertAll_spec (by rw [hz, add_zero]; exact hp.of_cons) hu
      rw [hz, add_zero] at hue
      have hpu := insert_polys u e false
      dsimp only at hr
      rcases hw : u.insert e false with ⟨w, _ | _⟩
      · rw [hw] at hr hpu
        apply ih _ hr
        rw [hpu.1, hpu.2]
        exact hvu.polys_ne
      · rw [hw] at hr
        obtain rfl : w = t' := Option.some.inj hr
        rw [← hue] at hp ⊢
        exact hvu.insert_new hp hw

theorem Valid.insert_known (h : t.Valid) (hc : e.hit.recipients.clients.Nonempty) {old : Hit}
    (hl : t.lookup e.key = some old) :
    ∃ t', t.insert e false = (t', true) ∧ t'.Valid ∧ ∀ k, t'.lookup k =
      if k = e.key then some (e.hit.join (some old)) else t.lookup k := by
  obtain ⟨i, hi⟩ := mem_entries.mp (h.lookup_eq_some_iff.mp hl)
  let u := t.put i (some ⟨e.key, e.hit.join (some old)⟩)
  have hu : t.insert e false = (u, true) := by
    unfold insert
    rw [h.find?_eq_some_iff.mpr ⟨old, hi⟩]
    dsimp only
    rw [hi]
    rfl
  have hs : u.slots = _ := h.slots_set (e := ⟨e.key, old⟩) (g := fun _ => some (e.hit.join (some old))) hi
  have hcard : u.entries.card = t.entries.card := by
    have := congrArg Multiset.card (entries_put t i (some ⟨e.key, e.hit.join (some old)⟩))
    rw [hi] at this
    simpa using this
  obtain ⟨hv, hlu⟩ := h.revise hs rfl rfl (h.size_eq.trans hcard.symm) (by
    intro k hit hit' hf hne
    split_ifs at hf
    · rw [← Option.some.inj hf]
      exact Hit.join_nonempty hc _
    · rw [← Option.some.inj hf]
      exact hne)
  refine ⟨u, hu, hv, fun k => ?_⟩
  rw [hlu]
  split_ifs with hk
  · rw [hk, hl]
    rfl
  · cases t.lookup k <;> rfl

theorem Valid.lookup_cons (h : t.Valid) (h' : t'.Valid) (he : t'.entries = e ::ₘ t.entries)
    (k : Key) : t'.lookup k = if k = e.key then some e.hit else t.lookup k := by
  ext hit
  have hm : ⟨k, hit⟩ = e ↔ k = e.key ∧ e.hit = hit := by
    cases e
    simp [eq_comm]
  have hp := h'.proper
  rw [he] at hp
  rw [h'.lookup_eq_some_iff, he, Multiset.mem_cons, hm, ← h.lookup_eq_some_iff]
  split_ifs with hk
  · have hl := h.lookup_eq_none_iff.mpr hp.key_ne_of_cons
    rw [hk, hl]
    simp
  · simp [hk]

/-- A refill begins with an empty table, so that of the old one only the polynomials matter. -/
theorem refill_congr (h₁ : t'.firstPoly = t.firstPoly) (h₂ : t'.secondPoly = t.secondPoly)
    (es : List Entry) (extra : Entry) (steps : ℕ) :
    t'.refill es extra steps = t.refill es extra steps := by
  have hr : t'.renewed = t.renewed := by
    unfold renewed
    rw [h₁, h₂]
  cases steps with
  | zero => rfl
  | succ steps =>
    unfold refill
    rw [hr]

/-- A table with room takes the entry, or else it is filled anew. -/
theorem add_of_room (hz : e.key ≠ .zero) (hroom : ¬ (n ≤ t.size ∧ t.find? e.key = none))
    (s : Table n) :
    t.add s e =
      if (t.insert e false).2 then ((t.insert e false).1, .ok false)
      else
        match t.refill s.toList e maxRefills with
        | some u => (u, .ok true)
        | none => (s, .error .tableFull) := by
  have hp := insert_polys t e false
  have hrefill := refill_congr hp.1 hp.2 s.toList e maxRefills
  unfold add
  rw [if_neg (show ¬ e.key.isZero from fun h => hz (beq_iff_eq.mp h)), if_neg hroom, ← hrefill]
  rcases t.insert e false with ⟨u, _ | _⟩ <;> rfl

theorem Valid.add_from_spec {s : Table n} (h : t.Valid) (hse : s.entries = t.entries)
    (hc : e.hit.recipients.clients.Nonempty) :
    (e.key = .zero ∧ t.add s e = (t, .error .zeroAddress)) ∨
      (e.key ≠ .zero ∧ t.lookup e.key = none ∧
        ∃ u, (u = t ∨ u = s) ∧ t.add s e = (u, .error .tableFull)) ∨
      ∃ t' refilled, t.add s e = (t', .ok refilled) ∧ e.key ≠ .zero ∧ t'.Valid ∧
        ∀ k, t'.lookup k =
          if k = e.key then some (e.hit.join (t.lookup e.key)) else t.lookup k := by
  by_cases hz : e.key = .zero
  · left
    exact ⟨hz, if_pos (beq_iff_eq.mpr hz)⟩
  right
  cases hl : t.lookup e.key with
  | some old =>
    have hf : ¬ (n ≤ t.size ∧ t.find? e.key = none) := fun ⟨_, hf⟩ => by
      have := h.lookup_eq_none_iff.mpr (h.find?_eq_none_iff.mp hf)
      rw [hl] at this
      cases this
    obtain ⟨t', hi, hv, hlt⟩ := h.insert_known hc hl
    rw [add_of_room hz hf, hi]
    exact .inr ⟨t', false, rfl, hz, hv, hlt⟩
  | none =>
    have hp : Proper (e ::ₘ t.entries) := h.proper.cons (h.lookup_eq_none_iff.mp hl) hz hc
    by_cases hn : n ≤ t.size ∧ t.find? e.key = none
    · refine .inl ⟨hz, rfl, t, .inl rfl, ?_⟩
      rw [add, if_neg (show ¬ e.key.isZero from fun h => hz (beq_iff_eq.mp h)), if_pos hn]
    · rw [add_of_room hz hn]
      rcases hi : t.insert e false with ⟨u, _ | _⟩
      · rw [if_neg Bool.false_ne_true]
        cases hr : t.refill s.toList e maxRefills with
        | none => exact .inl ⟨hz, rfl, s, .inr rfl, rfl⟩
        | some w =>
          rw [← hse] at hp
          obtain ⟨hv, he⟩ := refill_spec hp h.polys_ne hr
          have hew : w.entries = e ::ₘ t.entries := he.trans (by rw [← hse]; rfl)
          exact .inr ⟨w, true, rfl, hz, hv, h.lookup_cons hv hew⟩
      · obtain ⟨hv, he⟩ := h.insert_new hp hi
        exact .inr ⟨u, false, rfl, hz, hv, h.lookup_cons hv he⟩

theorem Valid.add_spec (h : t.Valid) (hc : e.hit.recipients.clients.Nonempty) :
    (e.key = .zero ∧ t.add t e = (t, .error .zeroAddress)) ∨
      (e.key ≠ .zero ∧ t.lookup e.key = none ∧ t.add t e = (t, .error .tableFull)) ∨
      ∃ t' refilled, t.add t e = (t', .ok refilled) ∧ e.key ≠ .zero ∧ t'.Valid ∧
        ∀ k, t'.lookup k =
          if k = e.key then some (e.hit.join (t.lookup e.key)) else t.lookup k := by
  obtain hzero | ⟨hz, hl, u, rfl | rfl, ha⟩ | hok := h.add_from_spec rfl hc
  · exact .inl hzero
  · exact .inr (.inl ⟨hz, hl, ha⟩)
  · exact .inr (.inl ⟨hz, hl, ha⟩)
  · exact .inr (.inr hok)

theorem add_source {s u : Table n} (h : t.add s e = (t', .ok false)) :
    t.add u e = (t', .ok false) := by
  unfold add at h ⊢
  split_ifs at h ⊢
  · exact h
  · exact h
  · rcases hi : t.insert e false with ⟨w, _ | _⟩
    · rw [hi] at h
      dsimp only at h
      cases hr : w.refill s.toList e maxRefills <;> simp [hr] at h
    · rw [hi] at h
      exact h

end Table

end EtherBuffer.Filter
