import EtherBuffer.Proofs.Filter.Refinement
import Mathlib.Data.Set.Card

/-! Keys that share their slots. No polynomial separates keys with the same exclusive or of their words.
-/
namespace EtherBuffer.Filter

/-- The exclusive or of both words, which is all that the hash sees of a key. -/
def Key.fold (k : Key) : UInt32 :=
  k.low ^^^ k.high

def foldSlot (n : ℕ) [Positive n] (poly w : UInt32) : Fin n :=
  Fin.ofNat n (foldWord poly (shiftBits poly 32 w) 0).toNat

/-- How many keys with a fold find room in a table. -/
def foldLimit (w : UInt32) : ℕ :=
  if w = 0 then 1 else 2

theorem slotIndex_eq (n : ℕ) [Positive n] (poly : UInt32) (k : Key) :
    slotIndex n poly k = foldSlot n poly k.fold :=
  rfl

theorem shiftBits_zero (poly : UInt32) (n : ℕ) : shiftBits poly n 0 = 0 := by
  induction n with
  | zero => rfl
  | succ n ih => exact ih

theorem foldSlot_zero (n : ℕ) [Positive n] (poly : UInt32) : foldSlot n poly 0 = 0 := by
  unfold foldSlot foldWord
  rw [shiftBits_zero, UInt32.xor_zero, shiftBits_zero]
  rfl

namespace Registry

/-- The keys with a fold that have a registration. -/
def fellows (m : Registry) (w : UInt32) : Set Key :=
  {k | (m k).isSome ∧ k.fold = w}

end Registry

namespace Table
variable {n : ℕ} {t t' : Table n} {e : Entry} {i : Fin n} {k : Key} {w : UInt32}

def keyIn (t : Table n) (i : Fin n) : Key :=
  ((t.slots.get i).map (·.key)).getD .zero

theorem card_entries_le (t : Table n) : t.entries.card ≤ n := by
  have h := List.length_filterMap_le id t.slots.toList
  rw [Vector.length_toList] at h
  exact h

theorem card_entries_lt (hi : t.slots.get i = none) : t.entries.card < n := by
  have e : Entry := ⟨.zero, .nobody, 0⟩
  have hput := congrArg Multiset.card (entries_put t i (some e))
  have hle := card_entries_le (t.put i (some e))
  rw [hi] at hput
  simp only [Option.toList_none, Option.toList_some, Multiset.coe_nil, add_zero,
    Multiset.coe_singleton, Multiset.card_add, Multiset.card_singleton] at hput
  omega

variable [Positive n]

/-! ### Keys that are never separated -/

theorem Valid.fellows_subset (h : t.Valid) (w : UInt32) :
    t.registry.fellows w ⊆ t.keyIn '' {foldSlot n t.firstPoly w, foldSlot n t.secondPoly w} := by
  rintro k ⟨hk, rfl⟩
  obtain ⟨hit, hl⟩ : ∃ hit, t.lookup k = some hit := by
    rw [registry, Option.isSome_map] at hk
    exact Option.isSome_iff_exists.mp hk
  obtain ⟨i, hi⟩ := mem_entries.mp (h.lookup_eq_some_iff.mp hl)
  refine ⟨i, ?_, ?_⟩
  · obtain ⟨c, hc⟩ := h.placed i _ hi
    cases c with
    | first => exact .inl (hc.trans (slotIndex_eq n t.firstPoly k))
    | second => exact .inr (hc.trans (slotIndex_eq n t.secondPoly k))
  · rw [keyIn, hi]
    rfl

theorem Valid.fellows_finite (h : t.Valid) (w : UInt32) : (t.registry.fellows w).Finite :=
  ((Set.toFinite _).image t.keyIn).subset (h.fellows_subset w)

theorem Valid.ncard_fellows_le (h : t.Valid) (w : UInt32) :
    (t.registry.fellows w).ncard ≤ foldLimit w := by
  let slots : Set (Fin n) := {foldSlot n t.firstPoly w, foldSlot n t.secondPoly w}
  have hle : (t.registry.fellows w).ncard ≤ slots.ncard :=
    (Set.ncard_le_ncard (h.fellows_subset w) ((Set.toFinite _).image t.keyIn)).trans
      (Set.ncard_image_le (Set.toFinite slots))
  refine hle.trans ?_
  unfold foldLimit
  split_ifs with hw
  · have hs : slots = {0} := by
      simp only [slots, hw, foldSlot_zero, Set.pair_eq_singleton]
    rw [hs, Set.ncard_singleton]
  · exact Set.ncard_insert_le _ _ |>.trans (by rw [Set.ncard_singleton])

/-- A table that holds all keys with a fold for which it has room refuses another one. -/
theorem Valid.add_crowded (h : t.Valid) (hc : e.hit.recipients.clients.Nonempty)
    (hz : e.key ≠ .zero) (hl : t.lookup e.key = none)
    (hw : foldLimit e.key.fold ≤ (t.registry.fellows e.key.fold).ncard) :
    t.add t e = (t, .error .tableFull) := by
  obtain ⟨hzero, -⟩ | ⟨-, -, ha⟩ | ⟨t', refilled, -, -, hv, hlt⟩ := h.add_spec hc
  · exact absurd hzero hz
  · exact ha
  · -- The table would hold one key too many.
    have hnew : e.key ∉ t.registry.fellows e.key.fold := by
      rintro ⟨hs, -⟩
      rw [registry, hl] at hs
      cases hs
    have hsub : Insert.insert e.key (t.registry.fellows e.key.fold) ⊆ t'.registry.fellows e.key.fold := by
      rintro k (rfl | ⟨hs, hk⟩)
      · refine ⟨?_, rfl⟩
        rw [registry, hlt, if_pos rfl]
        rfl
      · refine ⟨?_, hk⟩
        rw [registry, Option.isSome_map] at hs ⊢
        rw [hlt]
        split_ifs
        · rfl
        · exact hs
    have hcard := Set.ncard_le_ncard hsub (hv.fellows_finite _)
    rw [Set.ncard_insert_of_notMem hnew (h.fellows_finite _)] at hcard
    have := hv.ncard_fellows_le e.key.fold
    omega

/-! ### Keys with a free slot -/

theorem insert_of_free (replace : Bool) (hi : t.slots.get (t.index .first e.key) = none) :
    ∃ t', t.insert e replace = (t', true) ∧
      ∀ i, i ≠ t.index .first e.key → t.slots.get i = none → t'.slots.get i = none := by
  unfold insert
  cases hf : t.find? e.key with
  | none =>
    rw [chainMargin, place_of_free hi]
    refine ⟨_, rfl, fun i hne hnone => ?_⟩
    change (t.put _ _).slots.get i = none
    rw [get_put, if_neg hne.symm, hnone]
  | some j =>
    refine ⟨_, rfl, fun i hne hnone => ?_⟩
    rw [get_put, if_neg, hnone]
    rintro rfl
    unfold find? at hf
    split_ifs at hf with hz h₁ h₂
    · obtain ⟨x, hx, -⟩ := holds_iff.mp h₁
      rw [hi] at hx
      cases hx
    · obtain ⟨x, hx, -⟩ := holds_iff.mp h₂
      rw [Option.some.inj hf, hnone] at hx
      cases hx

theorem insert_of_vacant (replace : Bool) {c : Choice}
    (hc : t.slots.get (t.index c e.key) = none) : (t.insert e replace).2 = true := by
  unfold insert
  cases hf : t.find? e.key with
  | some i => rfl
  | none =>
    dsimp only
    rw [chainMargin]
    cases h₁ : t.slots.get (t.index .first e.key) with
    | none => rw [place_of_free h₁]
    | some old =>
      cases c with
      | first =>
        rw [h₁] at hc
        cases hc
      | second =>
        rw [place_of_taken h₁, if_neg Bool.false_ne_true]
        change (t.place e .second true (n + 9)).2 = true
        rw [place_of_free hc]

/-- Entries whose first slots are free and different are all stored. -/
theorem insertAll_of_free {es : List Entry}
    (hd : (es.map fun e => t.index .first e.key).Nodup)
    (hi : ∀ e ∈ es, t.slots.get (t.index .first e.key) = none) :
    ∃ t', t.insertAll es = (t', true) ∧
      ∀ i, i ∉ es.map (fun e => t.index .first e.key) → t.slots.get i = none →
        t'.slots.get i = none := by
  induction es generalizing t with
  | nil => exact ⟨t, rfl, fun i _ hnone => hnone⟩
  | cons e es ih =>
    obtain ⟨u, hu, hkeep⟩ := insert_of_free true (hi e List.mem_cons_self)
    have hp := insert_polys t e true
    rw [hu] at hp
    have hindex (x : Entry) : u.index .first x.key = t.index .first x.key :=
      index_congr hp.1 hp.2 .first x.key
    rw [List.map_cons, List.nodup_cons] at hd
    obtain ⟨v, hv, hkeep'⟩ := ih (t := u) (by simpa only [hindex] using hd.2) fun x hx => by
      rw [hindex]
      apply hkeep _ _ (hi x (List.mem_cons_of_mem e hx))
      intro he
      exact hd.1 (he ▸ List.mem_map_of_mem hx)
    refine ⟨v, ?_, fun i hmem hnone => ?_⟩
    · rw [insertAll, hu]
      exact hv
    · rw [List.map_cons, List.mem_cons, not_or] at hmem
      simp only [hindex] at hkeep'
      exact hkeep' i hmem.2 (hkeep i hmem.1 hnone)

theorem index_first_renewed (t : Table n) (k : Key) :
    t.renewed.index .first k = slotIndex n (nextPoly t.firstPoly) k :=
  rfl

theorem refill_of_separated_next {es : List Entry} (steps : ℕ)
    (hd : ((e :: es).map fun x => slotIndex n (nextPoly t.firstPoly) x.key).Nodup) :
    (t.refill es e (steps + 1)).isSome := by
  simp only [← index_first_renewed, List.map_cons, List.nodup_cons] at hd
  obtain ⟨u, hu, hkeep⟩ := insertAll_of_free hd.2 fun x _ => Vector.getElem_replicate _
  have hp := insertAll_polys t.renewed es
  rw [hu] at hp
  have hfree : u.slots.get (u.index .first e.key) = none := by
    rw [index_congr hp.1 hp.2]
    exact hkeep _ hd.1 (Vector.getElem_replicate _)
  obtain ⟨v, hv, -⟩ := insert_of_free false hfree
  unfold refill
  simp only [hu, hv, Option.isSome_some]

/-- A table is filled anew if one of the polynomials that are tried separates the keys. -/
theorem refill_of_separated {es : List Entry} {j steps : ℕ} (hj : j < steps)
    (hd : ((e :: es).map fun x => slotIndex n (nextPoly^[j + 1] t.firstPoly) x.key).Nodup) :
    (t.refill es e steps).isSome := by
  induction steps generalizing t j with
  | zero => exact absurd hj (Nat.not_lt_zero j)
  | succ steps ih =>
    cases j with
    | zero => exact refill_of_separated_next steps hd
    | succ j =>
      rw [Function.iterate_succ_apply] at hd
      have hj' : j < steps := Nat.lt_of_succ_lt_succ hj
      have hall := (insertAll_polys t.renewed es).1
      -- An attempt that fails has changed the polynomials, and these as foreseen.
      unfold refill
      rcases hu : t.renewed.insertAll es with ⟨u, _ | _⟩
      · rw [hu] at hall
        apply ih hj'
        rw [hall]
        exact hd
      · rw [hu] at hall
        have hins := (insert_polys u e false).1
        dsimp only
        rcases hv : u.insert e false with ⟨v, _ | _⟩
        · rw [hv] at hins
          apply ih hj'
          rw [hins, hall]
          exact hd
        · rfl

/-! ### Additions -/

theorem add_of_placed (hz : e.key ≠ .zero) (hs : t.entries.card < n) (h : t.Valid)
    (hi : (t.insert e false).2 = true ∨ (t.refill t.toList e maxRefills).isSome) :
    ∃ t' refilled, t.add t e = (t', .ok refilled) := by
  have hfull : ¬ (n ≤ t.size ∧ t.find? e.key = none) := by
    rw [h.size_eq]
    omega
  rw [add_of_room hz hfull]
  split_ifs with hins
  · exact ⟨_, false, rfl⟩
  · obtain ⟨u, hu⟩ := Option.isSome_iff_exists.mp (hi.resolve_left hins)
    exact ⟨u, true, by rw [hu]⟩

theorem Valid.add_of_known (h : t.Valid) (hc : e.hit.recipients.clients.Nonempty)
    (hz : e.key ≠ .zero) (hl : (t.lookup e.key).isSome) :
    ∃ t' refilled, t.add t e = (t', .ok refilled) := by
  obtain ⟨hzero, -⟩ | ⟨-, hnone, -⟩ | ⟨t', refilled, ha, -⟩ := h.add_spec hc
  · exact absurd hzero hz
  · rw [hnone] at hl
    cases hl
  · exact ⟨t', refilled, ha⟩

theorem Valid.add_of_free (h : t.Valid) (hz : e.key ≠ .zero) {c : Choice}
    (hc : t.slots.get (t.index c e.key) = none) :
    ∃ t' refilled, t.add t e = (t', .ok refilled) :=
  add_of_placed hz (card_entries_lt hc) h (.inl (insert_of_vacant false hc))

theorem Valid.add_of_separated (h : t.Valid) (hc : e.hit.recipients.clients.Nonempty)
    (hz : e.key ≠ .zero) {j : ℕ} (hj : j < maxRefills) (hd : Set.InjOn (slotIndex n (nextPoly^[j + 1] t.firstPoly))
      (Insert.insert e.key {k | (t.lookup k).isSome})) :
    ∃ t' refilled, t.add t e = (t', .ok refilled) := by
  by_cases hl : (t.lookup e.key).isSome
  · exact h.add_of_known hc hz hl
  rw [Option.not_isSome_iff_eq_none] at hl
  have hmem {x : Entry} (hx : x ∈ e :: t.toList) :
      x.key ∈ Insert.insert e.key {k | (t.lookup k).isSome} := by
    obtain rfl | hx := List.mem_cons.mp hx
    · exact .inl rfl
    · right
      change (t.lookup x.key).isSome
      rw [h.lookup_eq_some_iff.mpr (Multiset.mem_coe.mpr hx)]
      rfl
  have hkeys : ((e :: t.toList).map (·.key)).Nodup := by
    have hp : (t.toList.map (·.key)).Nodup := h.proper.unique
    rw [List.map_cons, List.nodup_cons]
    refine ⟨fun hm => ?_, hp⟩
    obtain ⟨x, hx, hk⟩ := List.mem_map.mp hm
    exact h.lookup_eq_none_iff.mp hl x hx hk
  have hslots : ((e :: t.toList).map fun x =>
      slotIndex n (nextPoly^[j + 1] t.firstPoly) x.key).Nodup := by
    apply List.Nodup.map_on _ (List.Nodup.of_map _ hkeys)
    intro x hx y hy hxy
    exact List.inj_on_of_nodup_map hkeys hx hy (hd (hmem hx) (hmem hy) hxy)
  have hlt : t.entries.card < n := by
    have hle := hslots.length_le_card
    rw [List.length_map, List.length_cons, Fintype.card_fin] at hle
    exact hle
  apply add_of_placed hz hlt h
  right
  exact refill_of_separated hj hslots

end Table

namespace AddressFilter
variable {n : ℕ} [Positive n] {f : AddressFilter n} {t : Table n} {m : Registry}

theorem Mirrors.add_answer (h : f.Mirrors t) {client : ℕ} (hc : client < Recipients.capacity)
    (high : Bool) (r : Request) :
    (f.add client high r).2 = (t.add t (entryOf client high r)).2.map fun _ => () := by
  rw [h.add_eq hc]
  rcases t.add t _ with ⟨u, e | refilled⟩ <;> rfl

theorem Used.ncard_fellows_le (h : Used f m) (w : UInt32) : (m.fellows w).ncard ≤ foldLimit w := by
  obtain ⟨t, -, hv, rfl⟩ := h.mirrors
  exact hv.ncard_fellows_le w

theorem Used.add_crowded (h : Used f m) {client : ℕ} (hc : client < Recipients.capacity)
    (high : Bool) {r : Request} (hz : r.key ≠ .zero) (hl : m r.key = none)
    (hw : (m.fellows r.key.fold).ncard = foldLimit r.key.fold) :
    (f.add client high r).2 = .error .tableFull := by
  obtain ⟨t, hm, hv, rfl⟩ := h.mirrors
  have hlookup : t.lookup r.key = none := Option.map_eq_none_iff.mp hl
  rw [hm.add_answer hc, hv.add_crowded (entryOf_nonempty hc high r) hz hlookup hw.ge]
  rfl

/-- A key finds room if it is registered, has a free slot or is separated later, and keys with one fold
never are. -/
theorem Used.add_settled (h : Used f m) {client : ℕ} (hc : client < Recipients.capacity)
    (high : Bool) {r : Request} (hz : r.key ≠ .zero) :
    ((m r.key).isSome ∨ (∃ c, f.active.slots.get (f.active.index c r.key) = none) ∨
        (∃ j < Table.maxRefills, Set.InjOn (slotIndex n (nextPoly^[j + 1] f.active.firstPoly))
          (insert r.key {k | (m k).isSome})) → (f.add client high r).2 = .ok ()) ∧
      (∀ w, (m.fellows w).ncard ≤ foldLimit w) ∧
      (m r.key = none → (m.fellows r.key.fold).ncard = foldLimit r.key.fold →
        (f.add client high r).2 = .error .tableFull) := by
  refine ⟨?_, h.ncard_fellows_le, h.add_crowded hc high hz⟩
  obtain ⟨t, hm, hv, rfl⟩ := h.mirrors
  have hsome (k : Key) : (t.registry k).isSome = (t.lookup k).isSome := Option.isSome_map
  have hok (ha : ∃ t' refilled, t.add t (entryOf client high r) = (t', .ok refilled)) :
      (f.add client high r).2 = .ok () := by
    obtain ⟨t', refilled, ha⟩ := ha
    rw [hm.add_answer hc, ha]
    rfl
  simp only [hm.active_eq, hsome]
  rintro (hk | ⟨c, hfree⟩ | ⟨j, hj, hd⟩)
  · exact hok (hv.add_of_known (entryOf_nonempty hc high r) hz hk)
  · exact hok (hv.add_of_free hz hfree)
  · exact hok (hv.add_of_separated (entryOf_nonempty hc high r) hz hj hd)

/-- Three addresses with one fold, of which two are in a table with sixteen slots. -/
theorem Used.add_settled_crowded :
    let r (a b : UInt8) : Request := { address := ⟨#v[a, 0, 0x5E, 0x10, b, 1]⟩ }
    let f := ((((empty 16).step .claimWriter).1.step (.add 0 false (r 2 0))).1.step
      (.add 0 false (r 6 4))).1
    f.size = 2 ∧ (f.add 0 false (r 10 8)).2 = .error .tableFull := by
  intro r f
  have h₀ := Used.start (n := 16).step .claimWriter trivial
  have h₁ := Used.update ⟨h₀, rfl⟩ (.add 0 false (r 2 0)) id nofun
  obtain ⟨h₂, -⟩ := Used.update h₁ (.add 0 false (r 6 4)) id nofun
  have ha : (((empty 16).step .claimWriter).1.step (.add 0 false (r 2 0))).2 = .done := by
    decide +kernel
  have hb : ((((empty 16).step .claimWriter).1.step (.add 0 false (r 2 0))).1.step
      (.add 0 false (r 6 4))).2 = .done := by
    decide +kernel
  rw [ha, hb] at h₂
  let m := (Registry.empty.register (r 2 0).key 0 false 0).register (r 6 4).key 0 false 0
  have h : f.Used m := h₂
  have hm : m.fellows (r 10 8).key.fold = {(r 6 4).key, (r 2 0).key} := by
    ext k
    simp only [m, Registry.fellows, Registry.register, Registry.empty, Function.update_apply,
      Set.mem_ofPred_eq, Set.mem_insert_iff, Set.mem_singleton_iff]
    by_cases hb : k = (r 6 4).key
    · subst hb
      simp only [if_true, Option.isSome_some, true_and, true_or, iff_true]
      decide
    · by_cases ha : k = (r 2 0).key
      · subst ha
        simp only [hb, if_false, if_true, Option.isSome_some, true_and, or_true, iff_true]
        decide
      · simp [hb, ha]
  refine ⟨by decide +kernel, (h.add_settled (by decide) false (by decide)).2.2 (by decide) ?_⟩
  rw [hm, Set.ncard_pair (by decide)]
  decide

end AddressFilter

end EtherBuffer.Filter
