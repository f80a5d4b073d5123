import EtherBuffer.Filter.Table
import EtherBuffer.Proofs.Filter.Recipients
import Mathlib.Algebra.Order.Group.Multiset
import Mathlib.Data.Set.Card
import Mathlib.Tactic.Abel

/-! A table as the collection of its entries. -/
namespace EtherBuffer.Filter.Table

section
variable {n : ℕ} {t : Table n} {i j : Fin n} {e : Entry} {x : Option Entry}

def entries (t : Table n) : Multiset Entry :=
  t.toList

private theorem filterMap_set {α : Type} {l : List (Option α)} {k : ℕ} (h : k < l.length)
    (x : Option α) :
    (((l.set k x).filterMap id : List α) : Multiset α) + l[k].toList =
      (l.filterMap id : List α) + x.toList := by
  induction l generalizing k with
  | nil => simp at h
  | cons a l ih =>
    have hc (b : Option α) (m : List (Option α)) :
        ((((b :: m).filterMap id) : List α) : Multiset α) = b.toList + (m.filterMap id : List α) := by
      cases b <;> simp
    cases k with
    | zero =>
      rw [List.set_cons_zero, hc, hc, List.getElem_cons_zero]
      abel
    | succ k =>
      rw [List.set_cons_succ, hc, hc, List.getElem_cons_succ, add_assoc, add_assoc]
      rw [ih (by simpa using h)]

/-- A slot gives up its entry for the one that is put into it. -/
theorem entries_put (t : Table n) (i : Fin n) (x : Option Entry) :
    (t.put i x).entries + (t.slots.get i).toList = t.entries + x.toList := by
  have h : i.val < t.slots.toList.length := by simp
  have hs : t.slots.toList[i.val] = t.slots.get i := Vector.getElem_toList _
  have := filterMap_set h x
  rw [hs, ← Vector.toList_set i.isLt] at this
  exact this

theorem get_put (t : Table n) (i j : Fin n) (x : Option Entry) :
    (t.put i x).slots.get j = if i = j then x else t.slots.get j := by
  change (t.slots.set i x)[j.val] = if i = j then x else t.slots[j.val]
  rw [Vector.getElem_set]
  simp only [Fin.ext_iff]

theorem slots_ext {v w : Vector (Option Entry) n} (h : ∀ i, v.get i = w.get i) : v = w :=
  Vector.ext fun i hi => h ⟨i, hi⟩

theorem get_map (f : Option Entry → Option Entry) (v : Vector (Option Entry) n) (i : Fin n) :
    (v.map f).get i = f (v.get i) :=
  Vector.getElem_map ..

theorem mem_entries : e ∈ t.entries ↔ ∃ i : Fin n, t.slots.get i = some e := by
  simp only [entries, toList, Multiset.mem_coe, List.mem_filterMap, id, exists_eq_right,
    Vector.mem_toList_iff, Vector.mem_iff_getElem]
  constructor
  · rintro ⟨k, hk, he⟩
    exact ⟨⟨k, hk⟩, he⟩
  · rintro ⟨i, he⟩
    exact ⟨i, i.isLt, he⟩

theorem entries_put_none (h : t.slots.get i = some e) : e ::ₘ (t.put i none).entries = t.entries := by
  have := entries_put t i none
  rw [h] at this
  rw [← Multiset.singleton_add, add_comm]
  simpa using this

theorem entries_of_none (h : ∀ i : Fin n, t.slots.get i = none) : t.entries = 0 := by
  apply Multiset.eq_zero_of_forall_notMem
  intro e he
  obtain ⟨i, hi⟩ := mem_entries.mp he
  rw [h] at hi
  cases hi

theorem entries_empty : (empty n).entries = 0 :=
  entries_of_none fun i => Vector.getElem_replicate i.isLt

theorem holds_iff {k : Key} : t.holds i k ↔ ∃ e, t.slots.get i = some e ∧ e.key = k := by
  simp [holds, Option.any_eq_true]

end

section
variable {n : ℕ} [Positive n] {t : Table n} {i j : Fin n} {e e' : Entry} {k : Key} {hit : Hit}

/-- A key has at most one entry, and every entry is for an address and for some client. -/
structure Proper (s : Multiset Entry) : Prop where
  unique : (s.map (·.key)).Nodup
  key_ne : ∀ e ∈ s, e.key ≠ .zero
  clients_nonempty : ∀ e ∈ s, e.hit.recipients.clients.Nonempty

/-- Every entry is in one of the two slots of its key. -/
def Placed (t : Table n) : Prop :=
  ∀ i e, t.slots.get i = some e → ∃ c, i = t.index c e.key

/-- What every operation on a table keeps. -/
structure Valid (t : Table n) : Prop where
  proper : Proper t.entries
  placed : t.Placed
  size_eq : t.size = t.entries.card
  polys_ne : t.firstPoly ≠ t.secondPoly

theorem index_congr {t' : Table n} (h₁ : t'.firstPoly = t.firstPoly)
    (h₂ : t'.secondPoly = t.secondPoly) (c : Choice) (k : Key) : t'.index c k = t.index c k := by
  unfold index poly
  cases c
  · rw [h₁]
  · rw [h₂]

theorem Proper.of_cons {s : Multiset Entry} (h : Proper (e ::ₘ s)) : Proper s where
  unique := by
    have := h.unique
    rw [Multiset.map_cons, Multiset.nodup_cons] at this
    exact this.2
  key_ne x hx := h.key_ne x (Multiset.mem_cons_of_mem hx)
  clients_nonempty x hx := h.clients_nonempty x (Multiset.mem_cons_of_mem hx)

theorem Proper.key_ne_of_cons {s : Multiset Entry} (h : Proper (e ::ₘ s)) :
    ∀ x ∈ s, x.key ≠ e.key := by
  intro x hx hk
  have := h.unique
  rw [Multiset.map_cons, Multiset.nodup_cons, ← hk] at this
  exact this.1 (Multiset.mem_map_of_mem _ hx)

theorem Proper.cons {s : Multiset Entry} (h : Proper s) (hk : ∀ x ∈ s, x.key ≠ e.key)
    (hz : e.key ≠ .zero) (hc : e.hit.recipients.clients.Nonempty) : Proper (e ::ₘ s) where
  unique := by
    rw [Multiset.map_cons, Multiset.nodup_cons]
    refine ⟨fun hm => ?_, h.unique⟩
    obtain ⟨x, hx, hxk⟩ := Multiset.mem_map.mp hm
    exact hk x hx hxk
  key_ne x hx := by
    obtain rfl | hx := Multiset.mem_cons.mp hx
    · exact hz
    · exact h.key_ne x hx
  clients_nonempty x hx := by
    obtain rfl | hx := Multiset.mem_cons.mp hx
    · exact hc
    · exact h.clients_nonempty x hx

namespace Valid

theorem slot_eq (h : t.Valid) (hi : t.slots.get i = some e) (hj : t.slots.get j = some e')
    (hk : e.key = e'.key) : i = j := by
  by_contra hij
  have hp := h.proper
  rw [← entries_put_none hi] at hp
  apply hp.key_ne_of_cons e' _ hk.symm
  rw [mem_entries]
  refine ⟨j, ?_⟩
  rw [get_put, if_neg hij, hj]

theorem find?_eq_some_iff (h : t.Valid) :
    t.find? k = some i ↔ ∃ hit, t.slots.get i = some ⟨k, hit⟩ := by
  constructor
  · intro hf
    unfold find? at hf
    split_ifs at hf with hz h₁ h₂
    · obtain ⟨e, he, rfl⟩ := holds_iff.mp h₁
      cases hf
      exact ⟨e.hit, he⟩
    · obtain ⟨e, he, rfl⟩ := holds_iff.mp h₂
      cases hf
      exact ⟨e.hit, he⟩
  · rintro ⟨hit, hs⟩
    have hz : k.isZero = false := beq_eq_false_iff_ne.mpr (h.proper.key_ne _ (mem_entries.mpr ⟨i, hs⟩))
    have hi : t.holds i k := holds_iff.mpr ⟨_, hs, rfl⟩
    unfold find?
    rw [hz, if_neg Bool.false_ne_true]
    by_cases h₁ : t.holds (t.index .first k) k
    · obtain ⟨e, he, hk⟩ := holds_iff.mp h₁
      rw [if_pos h₁, h.slot_eq he hs hk]
    · obtain ⟨c, hc⟩ := h.placed i _ hs
      cases c with
      | first => exact absurd (hc ▸ hi) h₁
      | second => rw [if_neg h₁, ← hc, if_pos hi]

theorem find?_eq_none_iff (h : t.Valid) : t.find? k = none ↔ ∀ e ∈ t.entries, e.key ≠ k := by
  constructor
  · rintro hf ⟨k, hit⟩ he rfl
    obtain ⟨i, hi⟩ := mem_entries.mp he
    rw [h.find?_eq_some_iff.mpr ⟨hit, hi⟩] at hf
    cases hf
  · intro ha
    rw [Option.eq_none_iff_forall_ne_some]
    intro i hf
    obtain ⟨hit, hs⟩ := h.find?_eq_some_iff.mp hf
    exact ha _ (mem_entries.mpr ⟨i, hs⟩) rfl

/-- The answer to a lookup is the entry of the key. -/
theorem lookup_eq_some_iff (h : t.Valid) : t.lookup k = some hit ↔ ⟨k, hit⟩ ∈ t.entries := by
  constructor
  · intro hl
    unfold lookup at hl
    split_ifs at hl with hz h₂ h₁
    · obtain ⟨e, he, rfl⟩ := holds_iff.mp h₂
      rw [he] at hl
      cases hl
      exact mem_entries.mpr ⟨_, he⟩
    · obtain ⟨e, he, rfl⟩ := holds_iff.mp h₁
      rw [he] at hl
      cases hl
      exact mem_entries.mpr ⟨_, he⟩
  · intro hm
    obtain ⟨i, hs⟩ := mem_entries.mp hm
    have hz : k.isZero = false := beq_eq_false_iff_ne.mpr (h.proper.key_ne _ hm)
    have hi : t.holds i k := holds_iff.mpr ⟨_, hs, rfl⟩
    unfold lookup
    rw [hz, if_neg Bool.false_ne_true]
    by_cases h₂ : t.holds (t.index .second k) k
    · obtain ⟨e, he, hk⟩ := holds_iff.mp h₂
      obtain rfl := h.slot_eq he hs hk
      rw [if_pos h₂, hs]
      rfl
    · obtain ⟨c, rfl⟩ := h.placed i _ hs
      cases c with
      | first =>
        rw [if_neg h₂, if_pos hi, hs]
        rfl
      | second => exact absurd hi h₂

theorem lookup_eq_none_iff (h : t.Valid) : t.lookup k = none ↔ ∀ e ∈ t.entries, e.key ≠ k := by
  rw [← h.find?_eq_none_iff, Option.eq_none_iff_forall_ne_some, Option.eq_none_iff_forall_ne_some]
  simp only [ne_eq, h.lookup_eq_some_iff, h.find?_eq_some_iff, mem_entries]
  constructor
  · rintro hl i ⟨hit, hs⟩
    exact hl hit ⟨i, hs⟩
  · rintro hl hit ⟨i, hs⟩
    exact hl i ⟨hit, hs⟩

end Valid

theorem proper_zero : Proper 0 where
  unique := Multiset.nodup_zero
  key_ne := by simp
  clients_nonempty := by simp

theorem valid_of_none (h : ∀ i : Fin n, t.slots.get i = none) (hs : t.size = 0)
    (hp : t.firstPoly ≠ t.secondPoly) : t.Valid where
  proper := by
    rw [entries_of_none h]
    exact proper_zero
  placed i e he := by
    rw [h] at he
    cases he
  size_eq := by
    rw [hs, entries_of_none h]
    rfl
  polys_ne := hp

theorem valid_empty : (empty n).Valid :=
  valid_of_none (fun i => Vector.getElem_replicate i.isLt) rfl (show (0xEDB88320 : UInt32) ≠ 0xBA75FE21 by decide)

theorem Valid.ncard_eq (h : t.Valid) (p : Entry → Prop) [DecidablePred p] :
    {k | ∃ hit, t.lookup k = some hit ∧ p ⟨k, hit⟩}.ncard = t.entries.countP p := by
  have hs : {k | ∃ hit, t.lookup k = some hit ∧ p ⟨k, hit⟩} =
      ((t.entries.filter p).map (·.key)).toFinset := by
    ext k
    simp only [h.lookup_eq_some_iff, Set.mem_ofPred_eq, Finset.mem_coe, Multiset.mem_toFinset,
      Multiset.mem_map, Multiset.mem_filter]
    constructor
    · rintro ⟨hit, hm, hp⟩
      exact ⟨⟨k, hit⟩, ⟨hm, hp⟩, rfl⟩
    · rintro ⟨⟨k, hit⟩, ⟨hm, hp⟩, rfl⟩
      exact ⟨hit, hm, hp⟩
  have hn : ((t.entries.filter p).map (·.key)).Nodup :=
    Multiset.nodup_of_le (Multiset.map_le_map (Multiset.filter_le p _)) h.proper.unique
  rw [hs, Set.ncard_coe_finset, Multiset.toFinset_card_of_nodup hn, Multiset.card_map,
    Multiset.countP_eq_card_filter]

theorem Valid.size_eq_ncard (h : t.Valid) : t.size = {k | (t.lookup k).isSome}.ncard := by
  have hs : {k | (t.lookup k).isSome} = {k | ∃ hit, t.lookup k = some hit ∧ True} := by
    ext k
    simp [Option.isSome_iff_exists]
  rw [h.size_eq, hs, h.ncard_eq fun _ => True]
  exact (Multiset.countP_eq_card.mpr fun _ _ => trivial).symm

end

end EtherBuffer.Filter.Table
