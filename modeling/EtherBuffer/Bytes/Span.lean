import EtherBuffer.Fault

/-! Spans of bytes in a memory of fixed size. An access beyond the end is a fault. -/
namespace EtherBuffer.Span

/-- Put `bytes` at `pos`; what falls outside the memory is lost. -/
def overwrite (memory : Array UInt8) (pos : Nat) : List UInt8 → Array UInt8
  | [] => memory
  | b :: bs => overwrite (memory.setIfInBounds pos b) (pos + 1) bs

def load (memory : Array UInt8) (pos n : Nat) : Except Fault (List UInt8) :=
  if pos + n ≤ memory.size then .ok (memory.extract pos (pos + n)).toList
  else .error .outOfRange

@[simp] theorem size_overwrite (memory : Array UInt8) (pos : Nat) (bytes : List UInt8) :
    (overwrite memory pos bytes).size = memory.size := by
  induction bytes generalizing memory pos with
  | nil => rfl
  | cons b bs ih => simp [overwrite, ih]

theorem getElem?_overwrite (memory : Array UInt8) (pos : Nat) (bytes : List UInt8) (i : Nat)
    (h : pos + bytes.length ≤ memory.size) :
    (overwrite memory pos bytes)[i]? =
      if pos ≤ i ∧ i < pos + bytes.length then bytes[i - pos]? else memory[i]? := by
  induction bytes generalizing memory pos with
  | nil =>
    have : ¬ (pos ≤ i ∧ i < pos) := by omega
    simp [overwrite, this]
  | cons b bs ih =>
    simp only [List.length_cons] at h ⊢
    rw [overwrite, ih _ _ (by simp; omega), Array.getElem?_setIfInBounds]
    by_cases hi : pos = i
    · subst hi
      rw [if_neg (by omega), if_pos rfl, if_pos (by omega), if_pos (by omega), Nat.sub_self]
      rfl
    · by_cases hr : pos + 1 ≤ i ∧ i < pos + 1 + bs.length
      · have hs : i - pos = (i - (pos + 1)) + 1 := by omega
        rw [if_pos hr, if_pos (by omega), hs, List.getElem?_cons_succ]
      · rw [if_neg hr, if_neg hi, if_neg (by omega)]

end EtherBuffer.Span
