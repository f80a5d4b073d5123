import EtherBuffer.Proofs.Egress.Gap

/-! Waiting for the end of the gap, in pauses that each leave less to wait for. -/
namespace EtherBuffer.Egress

/-- A timer that moves in pauses only, by the ticks that it makes in them. -/
structure Clock.Steady {σ : Type} (clock : Clock σ) (timerHz : UInt32) (time : σ → UInt32) :
    Prop where
  read_eq : ∀ s, (clock.read s).1 = time s
  time_read : ∀ s, time (clock.read s).2 = time s
  time_pause : ∀ ns s, time (clock.pause ns s) = time s + ticksIn timerHz ns

theorem pausedClock_steady (timerHz : UInt32) : (pausedClock timerHz).Steady timerHz id where
  read_eq _ := rfl
  time_read _ := rfl
  time_pause _ _ := rfl

/-- The timer is read before each pause and after the last one. -/
def Clock.follow {σ : Type} (clock : Clock σ) : List UInt32 → σ → σ
  | [], s => (clock.read s).2
  | ns :: pauses, s => clock.follow pauses (clock.pause ns (clock.read s).2)

/-! ### One pause -/

section Pause

variable {timerHz ticks : UInt32}

/-- Before they are counted in a word. -/
def pauseTicks (timerHz ticks : UInt32) : ℕ :=
  ceilDiv ((pauseLength timerHz ticks).toNat * timerHz.toNat) 1000000000

theorem toNat_pauseLength (timerHz ticks : UInt32) : (pauseLength timerHz ticks).toNat =
    max 1 (min (UInt32.size - 1) (ceilDiv (ticks.toNat * 1000000000) (max 1 timerHz.toNat))) := by
  have hsize : UInt32.size = 2 ^ 32 := rfl
  rw [pauseLength, UInt32.toNat_ofNat', Nat.mod_eq_of_lt (by omega)]

theorem pauseLength_pos (timerHz ticks : UInt32) : 0 < (pauseLength timerHz ticks).toNat := by
  rw [toNat_pauseLength]
  omega

theorem pauseLength_mul_lt (hz : 0 < timerHz) (hticks : 0 < ticks) :
    (pauseLength timerHz ticks).toNat * timerHz.toNat <
      ticks.toNat * 1000000000 + timerHz.toNat := by
  have hz' : 0 < timerHz.toNat := hz
  have hticks' : 0 < ticks.toNat := hticks
  have hmax : max 1 timerHz.toNat = timerHz.toNat := by omega
  have hpos := ceilDiv_pos (a := ticks.toNat * 1000000000) (by omega) hz'
  have hle : (pauseLength timerHz ticks).toNat ≤
      ceilDiv (ticks.toNat * 1000000000) timerHz.toNat := by
    rw [toNat_pauseLength, hmax]
    omega
  calc (pauseLength timerHz ticks).toNat * timerHz.toNat
      ≤ ceilDiv (ticks.toNat * 1000000000) timerHz.toNat * timerHz.toNat :=
        Nat.mul_le_mul_right _ hle
    _ = timerHz.toNat * ceilDiv (ticks.toNat * 1000000000) timerHz.toNat := Nat.mul_comm _ _
    _ < ticks.toNat * 1000000000 + timerHz.toNat := mul_ceilDiv_lt _ hz'

theorem pauseTicks_pos (hz : 0 < timerHz) (ticks : UInt32) : 0 < pauseTicks timerHz ticks :=
  ceilDiv_pos (Nat.mul_pos (pauseLength_pos timerHz ticks) hz) (by decide)

theorem pauseTicks_le (hz : 0 < timerHz) (hticks : 0 < ticks) :
    pauseTicks timerHz ticks ≤ ticks.toNat + ceilDiv timerHz.toNat 1000000000 := by
  have hlt := pauseLength_mul_lt hz hticks
  have hover := le_mul_ceilDiv timerHz.toNat (b := 1000000000) (by decide)
  refine (ceilDiv_le_iff (by decide)).mpr ?_
  omega

theorem ceilDiv_timerHz_le (timerHz : UInt32) : ceilDiv timerHz.toNat 1000000000 ≤ 5 := by
  have := timerHz.toNat_lt
  refine (ceilDiv_le_iff (by decide)).mpr ?_
  omega

end Pause

/-! ### One pause after the other -/

section Wait

variable {σ : Type} {clock : Clock σ} {time : σ → UInt32} {timerHz lastEnd g nextStart : UInt32}
  {pauses : List UInt32} {s : σ}

def Clock.Makes (clock : Clock σ) (timerHz lastEnd nextStart : UInt32) (pauses : List UInt32)
    (s : σ) : Prop :=
  ∀ reads, waitForGap clock timerHz lastEnd nextStart reads s =
    if pauses.length < reads then some (!pauses.isEmpty, clock.follow pauses s) else none

namespace Clock.Steady

theorem makes_nil (hc : clock.Steady timerHz time)
    (hw : waitRequired lastEnd nextStart (time s) = false) :
    clock.Makes timerHz lastEnd nextStart [] s := by
  intro reads
  cases reads with
  | zero => rfl
  | succ reads =>
    rw [waitForGap]
    simp only [hc.read_eq, hw]
    rfl

theorem makes_cons (hc : clock.Steady timerHz time)
    (hw : waitRequired lastEnd nextStart (time s) = true)
    (hm : clock.Makes timerHz lastEnd nextStart pauses
      (clock.pause (pauseLength timerHz (nextStart - time s)) (clock.read s).2)) :
    clock.Makes timerHz lastEnd nextStart
      (pauseLength timerHz (nextStart - time s) :: pauses) s := by
  intro reads
  cases reads with
  | zero => rfl
  | succ reads =>
    rw [waitForGap]
    simp only [hc.read_eq, hw, hm reads, List.length_cons, Nat.add_lt_add_iff_right, if_true]
    split_ifs <;> rfl

variable (hc : clock.Steady timerHz time) (hz : 0 < timerHz) (hlt : g.toNat < 2 ^ 31)
include hc hz hlt

theorem waits_inside (hin : InGap lastEnd g (time s)) :
    ∃ pauses, clock.Makes timerHz lastEnd (lastEnd + g) pauses s ∧ pauses ≠ [] ∧
      pauses.length ≤ (lastEnd + g - time s).toNat ∧ (∀ ns ∈ pauses, 0 < ns.toNat) ∧
      ∃ k ≤ ceilDiv timerHz.toNat 1000000000,
        time (clock.follow pauses s) = lastEnd + g + .ofNat k := by
  -- Induction on the ticks that are left, of which every pause takes some.
  induction hn : (lastEnd + g - time s).toNat using Nat.strong_induction_on generalizing s with
  | _ n ih =>
    have hg := hin.gap_pos
    have hw := (waitRequired_iff hg).mpr hin
    have hticks : 0 < lastEnd + g - time s := hin.rest_pos
    have hleft : 0 < n := hn ▸ hticks
    have hpos := pauseTicks_pos hz (lastEnd + g - time s)
    have hle := pauseTicks_le hz hticks
    let ns := pauseLength timerHz (lastEnd + g - time s)
    have hns : 0 < ns.toNat := pauseLength_pos timerHz _
    let u := clock.pause ns (clock.read s).2
    have htime : time u = time s + .ofNat (pauseTicks timerHz (lastEnd + g - time s)) := by
      rw [hc.time_pause, hc.time_read]
      rfl
    generalize pauseTicks timerHz (lastEnd + g - time s) = a at hpos hle htime
    rw [hn] at hle
    by_cases hshort : a < n
    · -- The pause was too short, and less is left to wait for.
      obtain ⟨hin', hrest⟩ := hin.advance (hn.symm ▸ hshort)
      rw [← htime] at hin' hrest
      obtain ⟨pauses, hm, -, hlen, hall, hend⟩ := ih (n - a) (by omega) hin' (by rw [hrest, hn])
      refine ⟨ns :: pauses, hc.makes_cons hw hm, List.cons_ne_nil _ _, ?_, ?_, hend⟩
      · rw [List.length_cons]
        omega
      · exact List.forall_mem_cons.mpr ⟨hns, hall⟩
    · -- The pause ends behind the gap.
      obtain ⟨k, rfl⟩ := Nat.exists_eq_add_of_le (Nat.le_of_not_lt hshort)
      have hk : k ≤ ceilDiv timerHz.toNat 1000000000 := by omega
      have hend : time u = lastEnd + g + .ofNat k := by
        rw [htime, UInt32.ofNat_add, ← hn, UInt32.ofNat_toNat, ← UInt32.add_assoc,
          UInt32.add_comm (time s), UInt32.sub_add_cancel]
      have hpast : waitRequired lastEnd (lastEnd + g) (time u) = false := by
        have hfew := ceilDiv_timerHz_le timerHz
        rw [hend]
        exact Bool.eq_false_of_not_eq_true fun h =>
          not_inGap_past (by omega) ((waitRequired_iff hg).mp h)
      refine ⟨[ns], hc.makes_cons hw (hc.makes_nil hpast), List.cons_ne_nil _ _, ?_, ?_, k, hk, ?_⟩
      · rw [List.length_singleton]
        omega
      · exact List.forall_mem_singleton.mpr hns
      · exact (hc.time_read u).trans hend

end Clock.Steady

end Wait

/-- With a timer that moves in pauses only, a wait ends behind the gap by no more than the ticks of a
nanosecond. -/
theorem waitForGap_ends {σ : Type} {clock : Clock σ} {timerHz : UInt32} {time : σ → UInt32}
    (hc : clock.Steady timerHz time) (hz : 0 < timerHz) (lastEnd g : UInt32) (hg : 0 < g)
    (hlt : g.toNat < 2 ^ 31) (s : σ) :
    ∃ pauses : List UInt32,
      (∀ reads, waitForGap clock timerHz lastEnd (lastEnd + g) reads s =
        if pauses.length < reads then
          some (waitRequired lastEnd (lastEnd + g) (time s), clock.follow pauses s)
        else none) ∧
      pauses.length < g.toNat ∧ (∀ ns ∈ pauses, 1 ≤ ns.toNat ∧ ns.toNat ≤ 2 ^ 32 - 1) ∧
      waitRequired lastEnd (lastEnd + g) (time (clock.follow pauses s)) = false ∧
      (waitRequired lastEnd (lastEnd + g) (time s) = true →
        ∃ k ≤ ceilDiv timerHz.toNat 1000000000,
          time (clock.follow pauses s) = lastEnd + g + .ofNat k) ∧
      (waitRequired lastEnd (lastEnd + g) (time s) = false →
        pauses = [] ∧ time (clock.follow pauses s) = time s) := by
  cases hw : waitRequired lastEnd (lastEnd + g) (time s) with
  | false =>
    have htime : time (clock.follow [] s) = time s := hc.time_read s
    refine ⟨[], hc.makes_nil hw, hg, by simp, by rw [htime, hw], nofun, fun _ => ⟨rfl, htime⟩⟩
  | true =>
    have hin := (waitRequired_iff hg).mp hw
    obtain ⟨pauses, hm, hsome, hlen, hall, k, hk, hend⟩ := hc.waits_inside hz hlt hin
    have hshort : (lastEnd + g - time s).toNat < g.toNat := hin.rest_lt
    have hany : (!pauses.isEmpty) = true := by simpa using hsome
    refine ⟨pauses, fun reads => by rw [hm reads, hany], by omega, fun ns hns => ?_, ?_,
      fun _ => ⟨k, hk, hend⟩, nofun⟩
    · exact ⟨hall ns hns, Nat.le_sub_one_of_lt ns.toNat_lt⟩
    · have hfew := ceilDiv_timerHz_le timerHz
      rw [hend]
      exact Bool.eq_false_of_not_eq_true fun h =>
        not_inGap_past (by omega) ((waitRequired_iff hg).mp h)

/-- A timer of three ticks a second. The first pause is the longest one that there is, and the second
one ends a tick late. -/
theorem waitForGap_ends_slowly :
    ∃ pauses : List UInt32, pauses.length = 2 ∧ (∀ ns ∈ pauses, 1 ≤ ns.toNat) ∧
      waitForGap (pausedClock 3) 3 0xFFFFFFF6 20 3 0 = some (true, 21) ∧
      waitForGap (pausedClock 3) 3 0xFFFFFFF6 20 2 0 = none ∧
      waitRequired 0xFFFFFFF6 20 21 = false := by
  obtain ⟨pauses, hruns, -, hall, hover, -⟩ :=
    waitForGap_ends (pausedClock_steady 3) (by decide) 0xFFFFFFF6 30 (by decide) (by decide) 0
  have hend : waitForGap (pausedClock 3) 3 0xFFFFFFF6 20 3 0 = some (true, 21) := by decide +kernel
  have hnone : waitForGap (pausedClock 3) 3 0xFFFFFFF6 20 2 0 = none := by decide +kernel
  have hnext : (0xFFFFFFF6 : UInt32) + 30 = 20 := by decide
  rw [hnext] at hruns hover
  have h₂ := hnone
  have h₃ := hend
  rw [hruns] at h₂ h₃
  split_ifs at h₂ h₃ with hlong hless
  obtain ⟨-, hfollow⟩ := Prod.mk.inj (Option.some.inj h₃)
  rw [hfollow] at hover
  exact ⟨pauses, by omega, fun ns hns => (hall ns hns).1, hend, hnone, hover⟩

end EtherBuffer.Egress
