import EtherBuffer.Proofs.Pool.Arena
import Mathlib.Tactic.Ring

/-! Receipts of committed records, which determine where every record of the ring starts. -/
namespace EtherBuffer
open Record

structure Receipt where
  handle : Handle
  payload : List UInt8
  header : Header
  releases : ℕ := 0
  deriving DecidableEq

/-- The extent of a record, or all bytes up to the end of the ring where no record may start. -/
def Record.stride (c v n : ℕ) : ℕ :=
  if v % c + extent n < c ∧ c < v % c + extent n + minUsage then c - v % c else extent n

def Record.IsStart (c v : ℕ) : Prop :=
  v % c + minUsage ≤ c ∧ v % 4 = 0

namespace Receipt

def size (r : Receipt) : ℕ :=
  extent r.payload.length

def isReleased (r : Receipt) : Bool :=
  r.releases != 0

def state (r : Receipt) : State :=
  if r.isReleased then .freed else .live

def release (r : Receipt) : Receipt :=
  { r with releases := r.releases + 1 }

def taken (r : Receipt) : Receipt :=
  if r.header.sharers = 0 then r
  else { r with header := { r.header with sharers := r.header.sharers - 1 } }

/-- The last of the clients that wait for the record releases it. -/
def collected (r : Receipt) : Receipt :=
  if r.header.sharers = 0 then r.release else r.taken

/-- After the frame of the record was sent at a time and given back. -/
def departed (time : UInt32) (r : Receipt) : Receipt :=
  { r with header := { r.header with timestamp := time, stage := .sent } }.release

/-- The number of the record that has a handle and was not released. -/
def numberOf (h : Handle) (rs : List Receipt) : ℕ :=
  rs.findIdx fun r => r.handle = h ∧ r.releases = 0

theorem taken_handle (r : Receipt) : r.taken.handle = r.handle := by
  unfold taken
  split_ifs <;> rfl

theorem taken_releases (r : Receipt) : r.taken.releases = r.releases := by
  unfold taken
  split_ifs <;> rfl

theorem collected_handle (r : Receipt) : r.collected.handle = r.handle := by
  unfold collected taken
  split_ifs <;> rfl

theorem collected_payload (r : Receipt) : r.collected.payload = r.payload := by
  unfold collected taken
  split_ifs <;> rfl

theorem collected_length (r : Receipt) : r.collected.header.length = r.header.length := by
  unfold collected taken
  split_ifs <;> rfl

theorem collected_sharers {r : Receipt} (h : r.collected.releases = 0) :
    r.collected.header.sharers.toNat + 1 = r.header.sharers.toNat := by
  have hne : r.header.sharers ≠ 0 := by
    intro hzero
    rw [collected, if_pos hzero] at h
    exact absurd h (Nat.succ_ne_zero r.releases)
  have hpos : 0 < r.header.sharers.toNat := Nat.pos_of_ne_zero fun h0 => hne (UInt32.toNat.inj h0)
  have hone : (1 : UInt32) ≤ r.header.sharers := UInt32.le_iff_toNat_le.mpr hpos
  rw [collected, if_neg hne, taken, if_neg hne]
  change (r.header.sharers - 1).toNat + 1 = _
  rw [UInt32.toNat_sub_of_le _ _ hone]
  change r.header.sharers.toNat - 1 + 1 = _
  omega

theorem collected_releases {r : Receipt} (hr : r.releases = 0) (h : r.collected.releases ≠ 0) :
    r.header.sharers.toNat = 0 := by
  by_contra hne
  have hs : r.header.sharers ≠ 0 := fun hzero => hne (congrArg UInt32.toNat hzero)
  rw [collected, if_neg hs, taken, if_neg hs] at h
  exact h hr

def after (c v : ℕ) (r : Receipt) : ℕ :=
  v + stride c v r.payload.length

/-- Where the record after the last one starts. -/
def stop (c v : ℕ) (rs : List Receipt) : ℕ :=
  rs.foldl (after c) v

@[simp] theorem stop_nil (c v : ℕ) : stop c v [] = v := rfl

@[simp] theorem stop_cons (c v : ℕ) (r : Receipt) (rs : List Receipt) :
    stop c v (r :: rs) = stop c (after c v r) rs := rfl

theorem stop_append (c v : ℕ) (rs ts : List Receipt) :
    stop c v (rs ++ ts) = stop c (stop c v rs) ts :=
  List.foldl_append

theorem stop_congr (c : ℕ) {rs ts : List Receipt}
    (h : rs.map (·.payload) = ts.map (·.payload)) (v : ℕ) : stop c v rs = stop c v ts := by
  induction rs generalizing v ts with
  | nil =>
    rw [List.map_nil, eq_comm, List.map_eq_nil_iff] at h
    rw [h]
  | cons r rs ih =>
    cases ts with
    | nil => simp at h
    | cons t ts =>
      simp only [List.map_cons, List.cons.injEq] at h
      simp only [stop_cons, after, h.1, ih h.2]

end Receipt

namespace Record

theorem IsStart.mod {c v : ℕ} (h4 : c % 4 = 0) (h : IsStart c v) : v % c % 4 = 0 := by
  rw [Nat.mod_mod_of_dvd _ (Nat.dvd_of_mod_eq_zero h4)]
  exact h.2

theorem extent_le_stride (c v n : ℕ) : extent n ≤ stride c v n := by
  unfold stride
  split_ifs with h <;> omega

theorem payloadOffset_add_le_stride (c v n : ℕ) : payloadOffset + n ≤ stride c v n :=
  (le_extent n).trans (extent_le_stride c v n)

/-- A whole number of words that holds link, header and payload holds the record. -/
theorem extent_le {n m : ℕ} (h : payloadOffset + n ≤ m) (hm : m % 4 = 0) : extent n ≤ m := by
  unfold extent wholeWords
  omega

theorem extent_mono {n m : ℕ} (h : n ≤ m) : extent n ≤ extent m :=
  extent_le ((Nat.add_le_add_left h _).trans (le_extent m)) (extent_mod m)

/-- Two positions at most one lap apart are in the same lap or in consecutive ones. -/
theorem lap_cases {c a v : ℕ} (hc : 0 < c) (hle : a ≤ v) (hlt : v ≤ a + c) :
    v / c = a / c ∨ v / c = a / c + 1 := by
  have h₁ := Nat.div_le_div_right (c := c) hle
  have h₂ := Nat.div_le_div_right (c := c) hlt
  rw [Nat.add_div_right a hc] at h₂
  omega

private theorem laps_mod {c : ℕ} (h4 : c % 4 = 0) (k : ℕ) : c * k % 4 = 0 := by
  rw [Nat.mul_mod, h4, Nat.zero_mul, Nat.zero_mod]

section Laps

variable {c base v n : ℕ} (h4 : c % 4 = 0) (hb : IsStart c base) (hv : IsStart c v)
  (hle : base ≤ v) (hroom : v + extent n ≤ base + c)
include h4 hb hv hle hroom

theorem isStart_add_stride : IsStart c (v + stride c v n) ∧ v + stride c v n ≤ base + c := by
  have hm : 0 < minUsage := by decide
  have hc : 0 < c := by have := hb.1; omega
  have hext := extent_mod n
  have hx := le_extent n
  have e₁ := Nat.div_add_mod v c
  have e₂ := Nat.div_add_mod base c
  have m₁ := Nat.mod_lt v hc
  have m₂ := Nat.mod_lt base hc
  obtain ⟨hb₁, hb₂⟩ := hb
  obtain ⟨hv₁, hv₂⟩ := hv
  have hlap : c * (v / c) = c * (base / c) ∨ c * (v / c) = c * (base / c) + c := by
    rcases lap_cases hc hle (show v ≤ base + c by omega) with h | h <;> rw [h]
    · exact Or.inl rfl
    · exact Or.inr (by ring)
  unfold IsStart stride
  split_ifs with hs
  · have he : v + (c - v % c) = c + c * (v / c) := by omega
    have hq := laps_mod h4 (v / c)
    rw [he, Nat.add_mul_mod_self_left, Nat.mod_self]
    omega
  · by_cases hw : v % c + extent n < c
    · rw [Pool.add_mod_of_lt hw]
      omega
    · have he : v + extent n = v % c + extent n - c + c * (v / c + 1) := by
        rw [Nat.mul_add]
        omega
      have hr : (v + extent n) % c = v % c + extent n - c := by
        rw [he, Nat.add_mul_mod_self_left, Nat.mod_eq_of_lt (by omega)]
      rw [hr]
      omega

end Laps

/-- Less than the last safe tail of the ring is left unused. -/
theorem stride_le {c v n : ℕ} (h4 : c % 4 = 0) (hv : IsStart c v) :
    stride c v n ≤ extent n + 80 * ((v + stride c v n) / c - v / c) := by
  have hm : 0 < minUsage := by decide
  have hc : 0 < c := by have := hv.1; omega
  have hext := extent_mod n
  have e₁ := Nat.div_add_mod v c
  unfold stride
  split_ifs with hs
  · have he : v + (c - v % c) = c * (v / c + 1) := by
      have := Nat.mod_lt v hc
      rw [Nat.mul_add]
      omega
    have hmod : v % c % 4 = 0 := by
      have h₁ := laps_mod h4 (v / c)
      have h₂ := hv.2
      omega
    have htail : c - v % c - extent n < minUsage := by omega
    rw [he, Nat.mul_div_cancel_left _ hc, Nat.add_sub_cancel_left, Nat.mul_one]
    have : minUsage = 84 := rfl
    omega
  · omega

end Record

namespace Receipt

theorem le_after (c v : ℕ) (r : Receipt) : v + payloadOffset + r.payload.length ≤ r.after c v := by
  have := payloadOffset_add_le_stride c v r.payload.length
  unfold after
  omega

theorem le_stop (c v : ℕ) (rs : List Receipt) : v ≤ stop c v rs := by
  induction rs generalizing v with
  | nil => exact le_rfl
  | cons r rs ih =>
    have h₁ := r.le_after c v
    have h₂ := ih (r.after c v)
    rw [stop_cons]
    omega

theorem lt_stop_cons (c v : ℕ) (r : Receipt) (rs : List Receipt) : v < stop c v (r :: rs) := by
  have h₁ := r.le_after c v
  have h₂ := le_stop c (r.after c v) rs
  have h₃ : 0 < payloadOffset := by decide
  rw [stop_cons]
  omega

end Receipt

end EtherBuffer
