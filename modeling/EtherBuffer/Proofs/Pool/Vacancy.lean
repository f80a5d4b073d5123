import EtherBuffer.Proofs.Pool.Contention
import EtherBuffer.Proofs.Pool.Room
import Mathlib.Order.Bounds.Defs

/-! The room test in any state, however it came about. -/
namespace EtherBuffer
open Record

namespace Record

/-- A record takes the least whole number of words that has room for its header and payload. -/
theorem extent_isLeast (n : ℕ) : IsLeast {m | 4 ∣ m ∧ payloadOffset + n ≤ m} (extent n) :=
  ⟨⟨Nat.dvd_of_mod_eq_zero (extent_mod n), le_extent n⟩,
    fun _ ⟨hm, hle⟩ => extent_le hle (Nat.mod_eq_zero_of_dvd hm)⟩

end Record

namespace Pool

variable {p : Pool} {n : ℕ}

theorem exists_region (h : max minUsage (extent n) ≤ p.freeSpace) :
    ∃ r, p.reserve = .region r ∧ r.written = 0 ∧ n ≤ r.room := by
  have hmin : ¬ p.freeSpace < minUsage := Nat.not_lt.mpr (le_of_max_le_left h)
  have hroom : payloadOffset + n ≤ p.freeSpace := (le_extent n).trans (le_of_max_le_right h)
  refine ⟨_, if_neg hmin, rfl, ?_⟩
  dsimp only
  omega

end Pool

namespace Contention

variable {c : Contention}

instance (c : Contention) (d : Demand) : Decidable (Anyhow c d) :=
  .isTrue trivial

/-- The room test compares exact numbers, unless a sum leaves the machine word, and a reservation is
refused just where it says no. -/
theorem reached_tests_room {p : Pool} {arena : Array UInt8} {priority : Priority}
    (hp : Pool.create arena priority = .ok p) (h : Run Anyhow step ⟨p, [], []⟩ c) (n : ℕ) :
    c.pool.writeOffset < c.pool.capacity ∧ c.pool.freeSpace ≤ c.pool.capacity ∧
      IsLeast {m | 4 ∣ m ∧ payloadOffset + n ≤ m} (extent n) ∧
      (payloadOffset + n + 3 < sizeLimit → ∃ fits, c.pool.canHold n = .ok fits ∧
        (fits = true ↔ max minUsage (extent n) ≤ c.pool.freeSpace) ∧
        c.pool.reserveAtLeast n = .ok (if fits then some c.pool.reserve else none) ∧
        (fits = true → ∃ r, c.pool.reserve = .region r ∧ r.written = 0 ∧ n ≤ r.room) ∧
        (c.pool.capacity < n → fits = false)) ∧
      (sizeLimit ≤ payloadOffset + n + 3 →
        c.pool.canHold n = .error .overflow ∧ c.pool.reserveAtLeast n = .error .overflow) := by
  have hcharted := charted_of_run hp h
  have hspace := Pool.freeSpace_le hcharted.readOffset_lt
  refine ⟨hcharted.writeOffset_lt, hspace, extent_isLeast n, fun hn => ?_, fun hn =>
    ⟨c.pool.canHold_oversized hn, c.pool.reserveAtLeast_oversized hn⟩⟩
  have htest := c.pool.canHold_eq hn
  refine ⟨_, htest, decide_eq_true_iff, Pool.reserveAtLeast_of_canHold htest,
    fun hfits => Pool.exists_region (of_decide_eq_true hfits), fun hlt => ?_⟩
  have hext := le_extent n
  refine decide_eq_false fun hfits => ?_
  have := le_of_max_le_right hfits
  omega

/-- Behind a record of 104 bytes an arena of 200 bytes has room for 52 bytes and no more. -/
theorem reached_tests_room_behind :
    ∃ p c, Pool.create (Array.replicate 200 0) .low = .ok p ∧
      Run Anyhow step ⟨p, [], []⟩ c ∧ c.pool.canHold 52 = .ok true ∧ c.pool.canHold 53 = .ok false ∧
      (∃ r, c.pool.reserveAtLeast 52 = .ok (some (.region r)) ∧ 52 ≤ r.room) ∧
      c.pool.reserveAtLeast 53 = .ok none ∧
      c.pool.reserveAtLeast (2 ^ 64 - 47) = .error .overflow := by
  have hroom : minUsage ≤ wholeWords (Array.replicate 200 (0 : UInt8)).size := by decide +kernel
  obtain ⟨p, hp⟩ : ∃ p, Pool.create (Array.replicate 200 0) .low = .ok p := ⟨_, dif_pos hroom⟩
  let demands : List Demand := [.reserve, .write 0 (.replicate 60 7), .commit 0 {}]
  have hperform : ((Pool.create (Array.replicate 200 0) .low).toOption.bind fun p =>
      (perform Anyhow step ⟨p, [], []⟩ demands).map (·.pool.freeSpace)) = some 96 := by
    decide +kernel
  rw [hp] at hperform
  obtain ⟨c, hc, hspace⟩ := Option.map_eq_some_iff.mp hperform
  have hrun := Run.of_perform hc
  obtain ⟨-, -, -, hfitting, -⟩ := reached_tests_room hp hrun 52
  obtain ⟨fits, hfits, hiff, hreserve, hregion, -⟩ := hfitting (by decide)
  obtain rfl : fits = true := hiff.mpr (by rw [hspace]; decide)
  obtain ⟨r, hr, -, hle⟩ := hregion rfl
  rw [hr] at hreserve
  obtain ⟨-, -, -, hrefused, -⟩ := reached_tests_room hp hrun 53
  obtain ⟨fits, hnot, hiff, hnone, -⟩ := hrefused (by decide)
  obtain rfl : fits = false :=
    Bool.eq_false_iff.mpr fun h => absurd (hiff.mp h) (by rw [hspace]; decide)
  obtain ⟨-, -, -, -, hoversized⟩ := reached_tests_room hp hrun (2 ^ 64 - 47)
  exact ⟨p, c, hp, hrun, hfits, hnot, ⟨r, hreserve, hle⟩, hnone, (hoversized (by decide)).2⟩

end Contention

end EtherBuffer
