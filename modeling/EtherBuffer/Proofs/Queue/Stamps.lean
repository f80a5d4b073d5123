import EtherBuffer.Queue.Stamps
import Mathlib.Data.List.Rotate
import Mathlib.Data.Nat.ModEq

/-! What a queue of departure times holds, as a list. Whatever is asked of the queue, it answers as the
list does. -/
namespace EtherBuffer.StampQueue

variable {n : ℕ} {q : StampQueue n} {waiting : List Stamp} {i j : ℕ}

def toList (q : StampQueue n) : List Stamp :=
  (q.cells.toList.rotate q.readIndex).take q.size

theorem after_eq (h : i < n) : after n i = (i + 1) % n := by
  unfold after
  split_ifs with hn
  · rw [hn, Nat.mod_self]
  · rw [Nat.mod_eq_of_lt (by omega)]

theorem place_ne (hi : i < n) (hj : j < n) (hne : i ≠ j) (k : ℕ) : (k + i) % n ≠ (k + j) % n := by
  intro h
  have hmod := Nat.ModEq.add_left_cancel' k h
  rw [Nat.ModEq, Nat.mod_eq_of_lt hi, Nat.mod_eq_of_lt hj] at hmod
  exact hne hmod

/-- The cells from the read index on hold the list, and the write index is behind it. -/
structure Holds (q : StampQueue n) (waiting : List Stamp) : Prop where
  size_eq : q.size = waiting.length
  writeIndex_eq : 0 < n → q.writeIndex = (q.readIndex + q.size) % n
  get_eq : ∀ j < waiting.length, q.cells[(q.readIndex + j) % n]? = waiting[j]?

namespace Holds

theorem empty : (empty n).Holds [] where
  size_eq := rfl
  writeIndex_eq _ := (Nat.zero_mod n).symm
  get_eq _ hj := absurd hj (Nat.not_lt_zero _)

theorem length_le (h : q.Holds waiting) : waiting.length ≤ n :=
  h.size_eq ▸ q.size_le

theorem toList_eq (h : q.Holds waiting) : q.toList = waiting := by
  have hle := h.length_le
  apply List.ext_getElem?
  intro j
  rw [toList, h.size_eq, List.getElem?_take]
  split_ifs with hj
  · rw [List.getElem?_rotate (by simpa using hj.trans_le hle), Vector.length_toList,
      Vector.getElem?_toList, Nat.add_comm]
    exact h.get_eq j hj
  · rw [List.getElem?_eq_none (by omega)]

theorem peek_eq (h : q.Holds waiting) : q.peek = waiting.head? := by
  unfold peek
  split_ifs with hsize
  · rw [h.size_eq, List.length_eq_zero_iff] at hsize
    rw [hsize]
    rfl
  · have hpos : 0 < waiting.length := by
      have := h.size_eq
      omega
    have hread := q.readIndex_lt (hpos.trans_le h.length_le)
    have hget := h.get_eq 0 hpos
    rw [Nat.add_zero, Nat.mod_eq_of_lt hread, ← List.head?_eq_getElem?] at hget
    rw [← hget]
    exact (Vector.getElem?_eq_getElem hread).symm

theorem add (h : q.Holds waiting) (hroom : waiting.length < n) (s : Stamp) :
    ∃ q', q.add s = .ok q' ∧ q'.Holds (waiting ++ [s]) := by
  have hsize := h.size_eq
  have hn : 0 < n := by omega
  have hwrite := h.writeIndex_eq hn
  have hlt := q.writeIndex_lt hn
  unfold StampQueue.add
  rw [dif_neg (by omega)]
  refine ⟨_, rfl, ?_, fun _ => ?_, fun j hj => ?_⟩
  · rw [List.length_append, ← hsize]
    rfl
  · change after n q.writeIndex = (q.readIndex + (q.size + 1)) % n
    rw [after_eq hlt, hwrite, Nat.mod_add_mod, Nat.add_assoc]
  · change (q.cells.set q.writeIndex s hlt)[(q.readIndex + j) % n]? = _
    rw [Vector.getElem?_set]
    rw [List.length_append, List.length_singleton] at hj
    -- The new time is in the cell at the write index, and no other one is.
    by_cases hlast : j = waiting.length
    · rw [hlast, hwrite, hsize, if_pos rfl, List.getElem?_concat_length]
    · have hne := place_ne (by omega) (by omega) (Ne.symm hlast) q.readIndex
      rw [hwrite, hsize, if_neg hne, List.getElem?_append_left (by omega)]
      exact h.get_eq j (by omega)

theorem add_full (h : q.Holds waiting) (hfull : n ≤ waiting.length) (s : Stamp) :
    q.add s = .error .full := by
  have hsize := h.size_eq
  have hle := q.size_le
  exact dif_pos (by omega)

theorem pop (h : q.Holds waiting) : ∃ q', q.pop = (waiting.head?, q') ∧ q'.Holds waiting.tail := by
  unfold StampQueue.pop
  rw [h.peek_eq]
  cases waiting with
  | nil => exact ⟨q, rfl, h⟩
  | cons s rest =>
    have hsize := h.size_eq
    have hle := h.length_le
    rw [List.length_cons] at hsize hle
    have hread := q.readIndex_lt (by omega)
    refine ⟨_, rfl, ?_, fun hn => ?_, fun j hj => ?_⟩
    · change q.size - 1 = rest.length
      omega
    · change q.writeIndex = (after n q.readIndex + (q.size - 1)) % n
      rw [after_eq hread, Nat.mod_add_mod, h.writeIndex_eq hn, Nat.add_assoc,
        Nat.add_sub_cancel' (by omega)]
    · change q.cells[(after n q.readIndex + j) % n]? = rest[j]?
      rw [after_eq hread, Nat.mod_add_mod, Nat.add_assoc, Nat.add_comm 1 j]
      exact h.get_eq (j + 1) (Nat.succ_lt_succ hj)

end Holds

/-! ### Requests -/

inductive Action where
  | add (s : Stamp)
  | pop
  | peek

inductive Answer where
  | done
  | refused (e : QueueError)
  | told (s : Option Stamp)
  deriving DecidableEq

/-- A time that is refused leaves the queue as it is. -/
def step (q : StampQueue n) : Action → StampQueue n × Answer
  | .add s =>
    match q.add s with
    | .ok q' => (q', .done)
    | .error e => (q, .refused e)
  | .pop => (q.pop.2, .told q.pop.1)
  | .peek => (q, .told q.peek)

/-- The same request to a list with room for `n` times. -/
def listStep (n : ℕ) (waiting : List Stamp) : Action → List Stamp × Answer
  | .add s => if waiting.length < n then (waiting ++ [s], .done) else (waiting, .refused .full)
  | .pop => (waiting.tail, .told waiting.head?)
  | .peek => (waiting, .told waiting.head?)

def replay {σ : Type} (act : σ → Action → σ × Answer) (x : σ) : List Action → σ × List Answer
  | [] => (x, [])
  | a :: as =>
    let (y, answer) := act x a
    let (z, answers) := replay act y as
    (z, answer :: answers)

namespace Holds

theorem step_full (h : q.Holds waiting) (hfull : n ≤ waiting.length) (s : Stamp) :
    q.step (.add s) = (q, .refused .full) := by
  rw [StampQueue.step, h.add_full hfull s]

theorem step (h : q.Holds waiting) (a : Action) :
    (q.step a).1.Holds (listStep n waiting a).1 ∧ (q.step a).2 = (listStep n waiting a).2 := by
  cases a with
  | add s =>
    by_cases hroom : waiting.length < n
    · obtain ⟨q', hadd, h'⟩ := h.add hroom s
      rw [StampQueue.step, listStep, hadd, if_pos hroom]
      exact ⟨h', rfl⟩
    · rw [h.step_full (Nat.not_lt.mp hroom), listStep, if_neg hroom]
      exact ⟨h, rfl⟩
  | pop =>
    obtain ⟨q', hpop, h'⟩ := h.pop
    rw [StampQueue.step, listStep, hpop]
    exact ⟨h', rfl⟩
  | peek => exact ⟨h, congrArg Answer.told h.peek_eq⟩

theorem replay (h : q.Holds waiting) (as : List Action) :
    (replay StampQueue.step q as).1.Holds (replay (listStep n) waiting as).1 ∧
      (replay StampQueue.step q as).2 = (replay (listStep n) waiting as).2 := by
  induction as generalizing q waiting with
  | nil => exact ⟨h, rfl⟩
  | cons a as ih =>
    obtain ⟨hstep, hanswer⟩ := h.step a
    obtain ⟨hrest, hanswers⟩ := ih hstep
    exact ⟨hrest, congrArg₂ List.cons hanswer hanswers⟩

theorem isEmpty_eq (h : q.Holds waiting) : q.isEmpty = waiting.isEmpty := by
  unfold StampQueue.isEmpty
  rw [h.size_eq]
  cases waiting <;> rfl

theorem isFull_eq (h : q.Holds waiting) : q.isFull = decide (waiting.length = n) := by
  unfold StampQueue.isFull
  rw [h.size_eq]
  rfl

end Holds

/-- A queue of any capacity answers as a list does that has room for as many times. A time that is
refused changes nothing. -/
theorem refines_list (n : ℕ) (as : List Action) :
    let q := (replay step (empty n) as).1
    let waiting := (replay (listStep n) [] as).1
    (replay step (empty n) as).2 = (replay (listStep n) [] as).2 ∧
      q.toList = waiting ∧ waiting.length ≤ n ∧ q.size = waiting.length ∧
      q.isEmpty = waiting.isEmpty ∧ q.isFull = decide (waiting.length = n) ∧
      q.peek = waiting.head? ∧
      (0 < n → q.readIndex < n ∧ q.writeIndex = (q.readIndex + q.size) % n) ∧
      (∀ s, waiting.length = n → q.step (.add s) = (q, .refused .full)) ∧
      (waiting = [] → q.step .pop = (q, .told none) ∧ q.step .peek = (q, .told none)) := by
  intro q waiting
  obtain ⟨h, hanswers⟩ := (Holds.empty (n := n)).replay as
  have hpeek : q.peek = waiting.head? := h.peek_eq
  refine ⟨hanswers, h.toList_eq, h.length_le, h.size_eq, h.isEmpty_eq, h.isFull_eq, hpeek,
    fun hn => ⟨q.readIndex_lt hn, h.writeIndex_eq hn⟩, fun s hfull => h.step_full hfull.ge s,
    fun hnil => ?_⟩
  rw [hnil, List.head?_nil] at hpeek
  constructor
  · rw [step, pop, hpeek]
  · rw [step, hpeek]

example : (replay step (empty 0) [.add ⟨1, 5⟩, .pop]).2 = [.refused .full, .told none] := rfl

end EtherBuffer.StampQueue
