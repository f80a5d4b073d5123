import EtherBuffer.Queue.Slots
import Mathlib.Data.List.Count
import Mathlib.Data.List.Rotate
import Mathlib.Data.Nat.ModEq

/-! The slots of a queue from the read index on, with holes where they were emptied, but never at the
front. -/
namespace EtherBuffer.SlotQueue
variable {n : ℕ} [Positive n]

def place (i : Fin n) (j : ℕ) : Fin n :=
  i + Fin.ofNat n j

theorem val_place (i : Fin n) (j : ℕ) : (place i j).val = (i.val + j) % n := by
  rw [place, Fin.val_add, Fin.val_ofNat, Nat.add_mod_mod]

theorem place_zero (i : Fin n) : place i 0 = i := by
  apply Fin.ext
  rw [val_place, Nat.add_zero, Nat.mod_eq_of_lt i.isLt]

theorem place_length (i : Fin n) : place i n = i := by
  apply Fin.ext
  rw [val_place, Nat.add_mod_right, Nat.mod_eq_of_lt i.isLt]

theorem after_eq_place (i : Fin n) : after i = place i 1 :=
  rfl

theorem place_place (i : Fin n) (j k : ℕ) : place (place i j) k = place i (j + k) := by
  apply Fin.ext
  rw [val_place, val_place, val_place, Nat.mod_add_mod, Nat.add_assoc]

theorem place_inj {i : Fin n} {j k : ℕ} (hj : j < n) (hk : k < n) (h : place i j = place i k) :
    j = k := by
  have hv := congrArg Fin.val h
  rw [val_place, val_place] at hv
  have := Nat.ModEq.add_left_cancel' i.val hv
  rwa [Nat.ModEq, Nat.mod_eq_of_lt hj, Nat.mod_eq_of_lt hk] at this

theorem exists_place (i k : Fin n) : ∃ j < n, k = place i j := by
  refine ⟨(n - i.val + k.val) % n, Nat.mod_lt _ k.pos, ?_⟩
  apply Fin.ext
  rw [val_place, Nat.add_mod_mod, ← Nat.add_assoc, Nat.add_sub_cancel' i.isLt.le,
    Nat.add_mod_left, Nat.mod_eq_of_lt k.isLt]

/-- From the slot `i` on, the slots are those of the window and then empty ones. -/
structure Lies (slots : Vector (Option Handle) n) (i : Fin n) (w : List (Option Handle)) :
    Prop where
  length_le : w.length ≤ n
  get_eq : ∀ j < n, slots.get (place i j) = w[j]?.join

namespace Lies
variable {slots : Vector (Option Handle) n} {i : Fin n} {w : List (Option Handle)}
  {x : Option Handle}

theorem get_self (h : Lies slots i (x :: w)) : slots.get i = x := by
  have := h.get_eq 0 i.pos
  rw [place_zero] at this
  simpa using this

theorem tail (h : Lies slots i (none :: w)) : Lies slots (after i) w where
  length_le := by
    have := h.length_le
    rw [List.length_cons] at this
    omega
  get_eq j hj := by
    have hle := h.length_le
    rw [List.length_cons] at hle
    rw [after_eq_place, place_place, Nat.add_comm]
    by_cases hn : j + 1 < n
    · rw [h.get_eq _ hn, List.getElem?_cons_succ]
    · obtain rfl : j + 1 = n := by omega
      rw [place_length, h.get_self, List.getElem?_eq_none (by omega)]
      rfl

theorem set (h : Lies slots i w) {j : ℕ} (hj : j < w.length) (x : Option Handle) :
    Lies (slots.set (place i j) x (place i j).isLt) i (w.set j x) where
  length_le := by
    rw [List.length_set]
    exact h.length_le
  get_eq k hk := by
    have hn := h.length_le
    change (slots.set (place i j) x (place i j).isLt)[(place i k).val] = _
    rw [Vector.getElem_set, List.getElem?_set]
    by_cases hjk : j = k
    · rw [if_pos (by rw [hjk]), if_pos hjk, if_pos hj]
      rfl
    · rw [if_neg hjk, if_neg fun hp => hjk (place_inj (by omega) hk (Fin.ext hp))]
      exact h.get_eq k hk

/-- The slot behind the window takes what is added. -/
theorem append (h : Lies slots i w) (hw : w.length < n) (x : Option Handle) :
    Lies (slots.set (place i w.length) x (place i w.length).isLt) i (w ++ [x]) where
  length_le := by
    rw [List.length_append, List.length_singleton]
    exact hw
  get_eq k hk := by
    change (slots.set (place i w.length) x (place i w.length).isLt)[(place i k).val] = _
    rw [Vector.getElem_set]
    by_cases hwk : w.length = k
    · subst hwk
      rw [if_pos rfl, List.getElem?_append_right le_rfl, Nat.sub_self]
      rfl
    · rw [if_neg fun hp => hwk (place_inj hw hk (Fin.ext hp))]
      by_cases hlt : k < w.length
      · rw [List.getElem?_append_left hlt]
        exact h.get_eq k hk
      · have hget := h.get_eq k hk
        rw [List.getElem?_eq_none (by omega)] at hget
        rw [List.getElem?_eq_none (by simp; omega)]
        exact hget

theorem rotate_eq (h : Lies slots i w) :
    slots.toList.rotate i.val = w ++ List.replicate (n - w.length) none := by
  have hle := h.length_le
  apply List.ext_getElem
  · simp
    omega
  · intro j hj hj'
    have hjn : j < n := by simpa using hj
    have hv : (j + i.val) % slots.toList.length = (place i j).val := by
      rw [val_place, Vector.length_toList, Nat.add_comm]
    have hs : slots.toList.get ⟨(place i j).val, by simp⟩ = slots.get (place i j) :=
      Vector.getElem_toList _
    rw [List.getElem_rotate]
    simp only [hv]
    refine hs.trans ?_
    rw [h.get_eq j hjn, List.getElem_append]
    by_cases hw : j < w.length
    · rw [dif_pos hw, List.getElem?_eq_getElem hw]
      rfl
    · rw [dif_neg hw, List.getElem?_eq_none (by omega), List.getElem_replicate]
      rfl

theorem count_eq (h : Lies slots i w) (x : Handle) :
    slots.toList.count (some x) = w.count (some x) := by
  have hz : (List.replicate (n - w.length) none).count (some x) = 0 :=
    List.count_eq_zero_of_not_mem (by simp)
  rw [← (List.rotate_perm slots.toList i.val).count_eq, h.rotate_eq, List.count_append, hz,
    Nat.add_zero]

theorem countP_eq (h : Lies slots i w) :
    slots.toList.countP Option.isSome = w.countP Option.isSome := by
  have hz : (List.replicate (n - w.length) (none : Option Handle)).countP Option.isSome = 0 := by
    simp
  rw [← (List.rotate_perm slots.toList i.val).countP_eq, h.rotate_eq, List.countP_append, hz,
    Nat.add_zero]

end Lies

structure Window (q : SlotQueue n) (w : List (Option Handle)) : Prop where
  lies : Lies q.slots q.readIndex w
  writeIndex_eq : q.writeIndex = place q.readIndex w.length
  front : ∀ x ∈ w.head?, x.isSome

theorem skipHoles_lies {slots : Vector (Option Handle) n} {i : Fin n} {w : List (Option Handle)}
    (h : Lies slots i w) (hn : w.length < n) {k : ℕ} (hk : w.length ≤ k) :
    Lies slots (skipHoles slots (place i w.length) k i) (w.dropWhile Option.isNone) ∧
      place i w.length =
        place (skipHoles slots (place i w.length) k i) (w.dropWhile Option.isNone).length := by
  -- A step passes one hole, and there are no more holes than steps.
  induction k generalizing i w with
  | zero =>
    obtain rfl : w = [] := List.length_eq_zero_iff.mp (Nat.le_zero.mp hk)
    exact ⟨h, rfl⟩
  | succ k ih =>
    cases w with
    | nil =>
      rw [skipHoles, if_neg]
      · exact ⟨h, rfl⟩
      · rintro ⟨hne, -⟩
        exact hne (place_zero i).symm
    | cons x w =>
      have hget := h.get_self
      have hne : i ≠ place i (x :: w).length := by
        intro he
        have := place_inj i.pos hn ((place_zero i).trans he)
        simp at this
      cases x with
      | none =>
        have hp : place i (none :: w).length = place (after i) w.length := by
          rw [after_eq_place, place_place, List.length_cons, Nat.add_comm]
        rw [skipHoles, if_pos ⟨hne, hget⟩, hp, List.dropWhile_cons_of_pos rfl]
        rw [List.length_cons] at hn hk
        exact ih h.tail (by omega) (by omega)
      | some y =>
        rw [skipHoles, if_neg, List.dropWhile_cons_of_neg (by simp)]
        · exact ⟨h, rfl⟩
        · rintro ⟨-, hnone⟩
          rw [hget] at hnone
          cases hnone

namespace Window
variable {q : SlotQueue n} {w : List (Option Handle)} {x : Handle}

theorem empty : (empty n).Window [] where
  lies := ⟨Nat.zero_le n, fun j _ => Vector.getElem_replicate _⟩
  writeIndex_eq := (place_zero _).symm
  front := by simp

theorem get_readIndex (h : q.Window w) : q.slots.get q.readIndex = w.head?.join := by
  have := h.lies.get_eq 0 q.readIndex.pos
  rwa [place_zero, ← List.head?_eq_getElem?] at this

theorem peek_eq (h : q.Window w) : q.peek = w.head?.join :=
  h.get_readIndex

theorem isEmpty_eq (h : q.Window w) : q.isEmpty = w.isEmpty := by
  unfold SlotQueue.isEmpty
  rw [h.get_readIndex]
  cases w with
  | nil => rfl
  | cons x w =>
    have hx := h.front x rfl
    obtain ⟨y, rfl⟩ := Option.isSome_iff_exists.mp hx
    rfl

theorem eq_nil_of_isEmpty (h : q.Window w) (hq : q.isEmpty = true) : w = [] := by
  rw [h.isEmpty_eq] at hq
  exact List.isEmpty_iff.mp hq

theorem isFull_eq (h : q.Window w) : q.isFull = decide (w.length = n) := by
  have hle := h.lies.length_le
  unfold isFull
  rw [h.writeIndex_eq]
  by_cases hw : w.length = n
  · rw [hw, place_length, h.get_readIndex]
    cases w with
    | nil =>
      have := q.readIndex.pos
      rw [List.length_nil] at hw
      omega
    | cons x w => simpa using h.front x rfl
  · rw [h.lies.get_eq _ (by omega), List.getElem?_eq_none le_rfl]
    simp [hw]

theorem add (h : q.Window w) (hw : w.length < n) (x : Handle) :
    ∃ q', q.add x = .ok q' ∧ q'.Window (w ++ [some x]) := by
  let q' : SlotQueue n := { q with
    slots := q.slots.set q.writeIndex (some x) q.writeIndex.isLt
    writeIndex := after q.writeIndex }
  have hadd : q.add x = .ok q' := by
    unfold SlotQueue.add
    rw [h.isFull_eq, if_neg (by simpa using hw.ne)]
  refine ⟨q', hadd, ?_, ?_, ?_⟩
  · have := h.lies.append hw (some x)
    rw [← h.writeIndex_eq] at this
    exact this
  · change after q.writeIndex = place q.readIndex (w ++ [some x]).length
    rw [h.writeIndex_eq, after_eq_place, place_place, List.length_append, List.length_singleton]
  · intro y hy
    cases w with
    | nil =>
      obtain rfl : some x = y := by simpa using hy
      rfl
    | cons z w => exact h.front y hy

theorem add_full (h : q.Window w) (hw : w.length = n) (x : Handle) : q.add x = .error .full := by
  unfold SlotQueue.add
  rw [h.isFull_eq, if_pos (by simpa using hw)]

theorem of_add (h : q.Window w) {q' : SlotQueue n} (ha : q.add x = .ok q') :
    q'.Window (w ++ [some x]) ∧ q'.readIndex = q.readIndex := by
  have hroom : w.length < n := by
    refine lt_of_le_of_ne h.lies.length_le fun hw => ?_
    rw [h.add_full hw] at ha
    cases ha
  obtain ⟨q'', hq, hwindow⟩ := h.add hroom x
  obtain rfl := Except.ok.inj (hq.symm.trans ha)
  refine ⟨hwindow, ?_⟩
  unfold SlotQueue.add at ha
  split_ifs at ha
  rw [← Except.ok.inj ha]

theorem freeIndex_eq {i : Fin n} (hi : (q.slots.get i).isSome) :
    q.freeIndex i.val = .ok (if i = q.readIndex then
      { q with
        slots := q.slots.set i none i.isLt
        readIndex := skipHoles (q.slots.set i none i.isLt) q.writeIndex n (after i) }
      else { q with slots := q.slots.set i none i.isLt }) := by
  have hnat : Fin.ofNat n i.val = i := Fin.ext (Nat.mod_eq_of_lt i.isLt)
  have hsome : ¬ (q.slots.get i).isNone = true := by
    rw [← Option.not_isSome, hi]
    simp
  unfold SlotQueue.freeIndex
  simp only [hnat]
  rw [if_neg hsome]
  split_ifs <;> rfl

/-- The first slot is passed when it is emptied, with the holes behind it. -/
theorem freeIndex_first {x : Handle} {w : List (Option Handle)} (h : q.Window (some x :: w)) :
    ∃ q', q.freeIndex q.readIndex.val = .ok q' ∧ q'.Window (w.dropWhile Option.isNone) := by
  have hget : q.slots.get q.readIndex = some x := h.get_readIndex
  have hset := h.lies.set (Nat.zero_lt_succ w.length) none
  rw [place_zero, List.set_cons_zero] at hset
  have hle := h.lies.length_le
  rw [List.length_cons] at hle
  have hw : q.writeIndex = place (after q.readIndex) w.length := by
    rw [h.writeIndex_eq, after_eq_place, place_place, List.length_cons, Nat.add_comm]
  obtain ⟨hl, hw'⟩ := skipHoles_lies hset.tail (by omega) (show w.length ≤ n by omega)
  rw [← hw] at hl hw'
  refine ⟨_, freeIndex_eq (by rw [hget]; rfl), ?_⟩
  rw [if_pos rfl]
  refine ⟨hl, hw', ?_⟩
  intro z hz
  have := List.head?_dropWhile_not Option.isNone w
  rw [Option.mem_def.mp hz] at this
  simpa using this

theorem freeIndex_behind (h : q.Window w) {j : ℕ} (hj : w[j + 1]? = some (some x)) :
    ∃ q', q.freeIndex (place q.readIndex (j + 1)).val = .ok q' ∧
      q'.Window (w.set (j + 1) none) := by
  have hlt : j + 1 < w.length := (List.getElem?_eq_some_iff.mp hj).1
  have hle := h.lies.length_le
  have hget : q.slots.get (place q.readIndex (j + 1)) = some x := by
    rw [h.lies.get_eq _ (by omega), hj]
    rfl
  have hne : place q.readIndex (j + 1) ≠ q.readIndex := by
    intro he
    have := place_inj (by omega) q.readIndex.pos (he.trans (place_zero _).symm)
    omega
  refine ⟨_, freeIndex_eq (by rw [hget]; rfl), ?_⟩
  rw [if_neg hne]
  refine ⟨h.lies.set hlt none, ?_, ?_⟩
  · rw [List.length_set]
    exact h.writeIndex_eq
  · cases w with
    | nil => simp at hlt
    | cons y w => exact h.front

theorem freeIndex (h : q.Window w) {i : Fin n} (hi : q.slots.get i = some x) :
    ∃ j q', i = place q.readIndex j ∧ w[j]? = some (some x) ∧ q.freeIndex i.val = .ok q' ∧
      q'.Window ((w.set j none).dropWhile Option.isNone) := by
  obtain ⟨j, hj, rfl⟩ := exists_place q.readIndex i
  have hjoin := (h.lies.get_eq j hj).symm.trans hi
  obtain ⟨y, hy, rfl⟩ : ∃ y, w[j]? = some y ∧ y = some x := by
    cases hy : w[j]? with
    | none =>
      rw [hy] at hjoin
      cases hjoin
    | some y =>
      rw [hy] at hjoin
      exact ⟨y, rfl, hjoin⟩
  cases w with
  | nil => simp at hy
  | cons z w =>
    cases j with
    | zero =>
      obtain rfl : z = some x := by simpa using hy
      obtain ⟨q', hq, hw⟩ := h.freeIndex_first
      refine ⟨0, q', rfl, hy, by rw [place_zero]; exact hq, ?_⟩
      rwa [List.set_cons_zero, List.dropWhile_cons_of_pos rfl]
    | succ j =>
      obtain ⟨q', hq, hw⟩ := h.freeIndex_behind hy
      have hz := h.front z rfl
      refine ⟨j + 1, q', rfl, hy, hq, ?_⟩
      rwa [List.set_cons_succ, List.dropWhile_cons_of_neg (by simpa [Option.isSome_iff_ne_none] using hz),
        ← List.set_cons_succ]

section Solid

/-! Where only the front is ever emptied, the window has no holes. -/

variable {hs : List Handle}

theorem peek_solid (h : q.Window (hs.map some)) : q.peek = hs.head? := by
  rw [h.peek_eq, List.head?_map]
  cases hs.head? <;> rfl

theorem pop_solid (h : q.Window ((x :: hs).map some)) :
    ∃ q', q.freeIndex q.readIndex.val = .ok q' ∧ q'.Window (hs.map some) := by
  obtain ⟨q', hq, hw⟩ := h.freeIndex_first
  refine ⟨q', hq, ?_⟩
  have hnone : (hs.map some).dropWhile Option.isNone = hs.map some := by
    cases hs with
    | nil => rfl
    | cons y hs => exact List.dropWhile_cons_of_neg (by simp)
  rwa [hnone] at hw

theorem count_solid (h : q.Window (hs.map some)) (x : Handle) :
    q.slots.toList.count (some x) = hs.count x := by
  rw [h.lies.count_eq, List.count_map_of_injective hs some (Option.some_injective Handle)]

theorem mem_solid (h : q.Window (hs.map some)) : some x ∈ q.slots.toList ↔ x ∈ hs := by
  rw [← List.count_pos_iff, h.count_solid, List.count_pos_iff]

theorem size_solid (h : q.Window (hs.map some)) : q.size = hs.length := by
  rw [size, h.lies.countP_eq, List.countP_map]
  exact List.countP_eq_length.mpr fun _ _ => rfl

end Solid

end Window

end EtherBuffer.SlotQueue
