import EtherBuffer.Proofs.Filter.Representation

/-! What a chain of displacements keeps: all entries, or all but the one in hand. -/
namespace EtherBuffer.Filter.Table

section
variable {n : ℕ} {t : Table n}

theorem nodup_keys_iff : (t.entries.map (·.key)).Nodup ↔
    ∀ i j e e', t.slots.get i = some e → t.slots.get j = some e' → e.key = e'.key → i = j := by
  have hlt (i : Fin n) : i.val < t.slots.toList.length := by simp
  have hget (i : Fin n) (hi : i.val < t.slots.toList.length) :
      t.slots.toList[i.val] = t.slots.get i := Vector.getElem_toList _
  rw [entries, toList, Multiset.map_coe, Multiset.coe_nodup, List.nodup_iff_pairwise_ne,
    List.pairwise_map, List.pairwise_filterMap, List.pairwise_iff_getElem]
  constructor
  · intro h i j e e' hi hj hk
    rw [← hget _ (hlt _)] at hi hj
    rcases lt_trichotomy i j with hij | hij | hij
    · exact absurd hk (h i j (hlt i) (hlt j) hij e hi e' hj)
    · exact hij
    · exact absurd hk.symm (h j i (hlt j) (hlt i) hij e' hj e hi)
  · intro h i j hi hj hij e he e' he' hk
    have hbound : t.slots.toList.length = n := Vector.length_toList
    have heq := h ⟨i, hbound ▸ hi⟩ ⟨j, hbound ▸ hj⟩ e e' ((hget _ hi).symm.trans he)
      ((hget _ hj).symm.trans he') hk
    exact hij.ne (Fin.mk.inj heq)

end

variable {n : ℕ} [Positive n] {t t' : Table n} {e : Entry} {lost : Option Entry}

/-- Every occupied slot has a key of its own, and is one of the two slots of that key. -/
structure Orderly (t : Table n) : Prop where
  key_ne : ∀ i e, t.slots.get i = some e → e.key ≠ .zero
  unique : ∀ i j e e', t.slots.get i = some e → t.slots.get j = some e' → e.key = e'.key → i = j
  placed : t.Placed

theorem Valid.orderly (h : t.Valid) : t.Orderly where
  key_ne i e hi := h.proper.key_ne e (mem_entries.mpr ⟨i, hi⟩)
  unique _ _ _ _ hi hj := h.slot_eq hi hj
  placed := h.placed

theorem find?_eq_none_of_absent {k : Key} (h : ∀ i x, t.slots.get i = some x → x.key ≠ k) :
    t.find? k = none := by
  have hholds (i : Fin n) : ¬ t.holds i k := fun hi =>
    have ⟨x, hx, hk⟩ := holds_iff.mp hi
    h i x hx hk
  unfold find?
  rw [if_neg (hholds _), if_neg (hholds _), ite_self]

namespace Displaced

theorem le (h : Displaced t e lost t') : t'.entries ≤ e ::ₘ t.entries :=
  h.entries_eq ▸ Multiset.le_add_right _ _

theorem orderly (h : Displaced t e lost t') (ht : t.Orderly) (hz : e.key ≠ .zero)
    (ha : ∀ i x, t.slots.get i = some x → x.key ≠ e.key) : t'.Orderly where
  key_ne i x hi := by
    obtain rfl | hx := Multiset.mem_cons.mp (Multiset.mem_of_le h.le (mem_entries.mpr ⟨i, hi⟩))
    · exact hz
    · obtain ⟨j, hj⟩ := mem_entries.mp hx
      exact ht.key_ne j x hj
  unique := by
    have hkeys : ((e ::ₘ t.entries).map (·.key)).Nodup := by
      rw [Multiset.map_cons, Multiset.nodup_cons]
      refine ⟨fun hm => ?_, nodup_keys_iff.mpr ht.unique⟩
      obtain ⟨x, hx, hk⟩ := Multiset.mem_map.mp hm
      obtain ⟨i, hi⟩ := mem_entries.mp hx
      exact ha i x hi hk
    exact nodup_keys_iff.mp (Multiset.nodup_of_le (Multiset.map_le_map h.le) hkeys)
  placed := h.placed ht.placed

theorem cons_eq {x : Entry} (h : Displaced t e (some x) t') :
    x ::ₘ t'.entries = e ::ₘ t.entries := by
  rw [← h.entries_eq, ← Multiset.singleton_add, add_comm]
  rfl

end Displaced

theorem insert_of_absent (ha : ∀ i x, t.slots.get i = some x → x.key ≠ e.key) (replace : Bool) :
    ∃ t' lost, t.insert e replace = (t', lost.isNone) ∧ Displaced t e lost t' := by
  obtain ⟨lost, hd, hl⟩ := place_spec t e .first false (n + chainMargin)
  refine ⟨_, lost, ?_, hd⟩
  rw [← hl, insert, find?_eq_none_of_absent ha]

/-- All entries and the new one are stored, or one of them all is left without a slot. Whatever moves
takes its data along. -/
theorem Orderly.insert_conserves (h : t.Orderly) (hz : e.key ≠ .zero)
    (ha : ∀ i x, t.slots.get i = some x → x.key ≠ e.key) (replace : Bool) :
    ∃ t' stored, t.insert e replace = (t', stored) ∧ t'.Orderly ∧
      t'.firstPoly = t.firstPoly ∧ t'.secondPoly = t.secondPoly ∧
      (∀ i x, t'.slots.get i = some x → x = e ∨ ∃ j, t.slots.get j = some x) ∧
      (stored = true → t'.entries = e ::ₘ t.entries ∧ t'.size = t.size + 1) ∧
      (stored = false →
        (∃ x ∈ e ::ₘ t.entries, t'.entries = (e ::ₘ t.entries).erase x) ∧ t'.size = t.size ∧
        ((List.finRange n).countP fun i => (t'.slots.get i).isSome) =
          (List.finRange n).countP fun i => (t.slots.get i).isSome) := by
  obtain ⟨t', lost, hins, hd⟩ := insert_of_absent ha replace
  have hsize := hd.size_eq
  refine ⟨t', lost.isNone, hins, hd.orderly h hz ha, hd.firstPoly_eq, hd.secondPoly_eq,
    fun i x hi => ?_, fun hs => ?_, fun hs => ?_⟩
  · obtain rfl | hx := Multiset.mem_cons.mp (Multiset.mem_of_le hd.le (mem_entries.mpr ⟨i, hi⟩))
    · exact .inl rfl
    · exact .inr (mem_entries.mp hx)
  · obtain rfl := Option.isNone_iff_eq_none.mp hs
    exact ⟨by simpa using hd.entries_eq, hsize⟩
  · obtain ⟨x, rfl⟩ := Option.isSome_iff_exists.mp (Option.isNone_eq_false_iff.mp hs)
    have hcons := hd.cons_eq
    refine ⟨⟨x, ?_, ?_⟩, Nat.succ.inj hsize, ?_⟩
    · rw [← hcons]
      exact Multiset.mem_cons_self x _
    · rw [← hcons, Multiset.erase_cons_head]
    · have hcard := congrArg Multiset.card hcons
      rw [Multiset.card_cons, Multiset.card_cons] at hcard
      rw [countP_occupied, countP_occupied]
      exact Nat.succ.inj hcard

/-- In one table an address moves two others on; in the other one an address is left over. -/
theorem Orderly.insert_conserves_chain :
    let entry (a : UInt8) : Entry :=
      ⟨.ofAddress ⟨#v[2, 0, 0, 0, 0, a]⟩, .withHigh ⟨Recipients.clientBit 0⟩ false, a.toUInt32⟩
    let one (a : UInt8) : Table 4 := ((empty 4).add (empty 4) (entry a)).1
    let two (a b : UInt8) : Table 4 := ((one a).add (one a) (entry b)).1
    (∃ t, (two 7 6).insert (entry 4) false = (t, true) ∧ t.Orderly ∧
      t.entries = entry 4 ::ₘ (two 7 6).entries ∧ t.slots.get 0 = some (entry 7)) ∧
    ∃ t, (two 1 6).insert (entry 12) false = (t, false) ∧ t.Orderly ∧ t.size = 2 ∧
      t.entries = {entry 1, entry 12} := by
  intro entry one two
  have hzero : Recipients.single 0 = .ok ⟨Recipients.clientBit 0⟩ := rfl
  have hvalid (a b : UInt8) : (two a b).Valid :=
    have hone : (one a).Reached := Reached.empty.add false _ _ .empty rfl hzero
    (hone.add false _ _ hone rfl hzero).valid
  have habsent {a b c : UInt8} (hf : (two a b).find? (entry c).key = none) :
      ∀ i x, (two a b).slots.get i = some x → x.key ≠ (entry c).key := fun i x hi =>
    (hvalid a b).find?_eq_none_iff.mp hf x (mem_entries.mpr ⟨i, hi⟩)
  constructor
  · have hrun : ((two 7 6).insert (entry 4) false).2 = true ∧
        ((two 7 6).insert (entry 4) false).1.slots.get 0 = some (entry 7) := by
      decide +kernel
    have hnew : ((two 7 6).find? (entry 4).key) = none := by decide +kernel
    obtain ⟨t, stored, hins, ht, -, -, -, hstored, -⟩ :=
      (hvalid 7 6).orderly.insert_conserves (e := entry 4) (by decide) (habsent hnew) false
    rw [hins] at hrun
    obtain ⟨rfl, hfirst⟩ := hrun
    exact ⟨t, hins, ht, (hstored rfl).1, hfirst⟩
  · have hrun : ((two 1 6).insert (entry 12) false).2 = false ∧
        ((two 1 6).insert (entry 12) false).1.toList = [entry 1, entry 12] := by
      decide +kernel
    have hsize : (two 1 6).size = 2 := by decide +kernel
    have hnew : ((two 1 6).find? (entry 12).key) = none := by decide +kernel
    obtain ⟨t, stored, hins, ht, -, -, -, -, hlost⟩ :=
      (hvalid 1 6).orderly.insert_conserves (e := entry 12) (by decide) (habsent hnew) false
    rw [hins] at hrun
    obtain ⟨rfl, hlist⟩ := hrun
    exact ⟨t, hins, ht, (hlost rfl).2.1.trans hsize, congrArg _ hlist⟩

end EtherBuffer.Filter.Table
