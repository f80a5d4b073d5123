import EtherBuffer.Proofs.Egress.Credit
import EtherBuffer.Proofs.Egress.Steps

/-! The rate of the high class: what was sent since the shaper was armed is covered by the slope. -/
namespace EtherBuffer

namespace Link

def Line.Shapes (slope : UInt32) (limit : Int32) (line : Line) : Prop :=
  line.shaperEnabled = true ∧ line.slope = slope ∧ line.limit = limit
  deriving Decidable

/-- The slope for a bandwidth grants no more than the bandwidth. -/
theorem idleSlope_le {bitsPerSecond timerHz slope : UInt32}
    (h : idleSlope bitsPerSecond timerHz = .ok slope) :
    0 < timerHz.toNat ∧ slope.toNat * timerHz.toNat ≤ bitsPerSecond.toNat * 2 ^ 16 := by
  unfold idleSlope at h
  split_ifs at h with hz
  have hpos : 0 < timerHz.toNat := by
    rw [Nat.pos_iff_ne_zero]
    exact fun h0 => hz (UInt32.toNat_inj.mp h0)
  obtain rfl := Except.ok.inj h
  refine ⟨hpos, ?_⟩
  rw [UInt32.toNat_ofNat', Nat.shiftLeft_eq]
  calc min (UInt32.size - 1) (bitsPerSecond.toNat * 2 ^ creditPlaces / timerHz.toNat) % 2 ^ 32 *
        timerHz.toNat
      ≤ bitsPerSecond.toNat * 2 ^ creditPlaces / timerHz.toNat * timerHz.toNat :=
        Nat.mul_le_mul_right _ ((Nat.mod_le _ _).trans (min_le_right _ _))
    _ ≤ bitsPerSecond.toNat * 2 ^ 16 := Nat.div_mul_le_self _ _

end Link

namespace Egress

open Link

variable {clients depth stamps : ℕ}

/-- The transmit side, with a count of what the high class has sent. -/
structure Metering (clients depth stamps : ℕ) where
  scheduler : Scheduler clients depth stamps
  pools : PerPriority Pool
  /-- The true time, of which the timer tells the last 32 bits. -/
  now : ℕ := 0
  pending : Option Selection := none
  armedAt : ℕ := 0
  /-- The bits on the wire of the high frames that were completed since `armedAt`. -/
  sentBits : ℕ := 0

namespace Metering

inductive Action where
  | wait (ticks : ℕ)
  | reset
  | select (line : Line)
  | complete (stamp stop : UInt32) (line : Line)
  | enqueue (client : ℕ) (h : Handle)
  | send (p : Priority) (client : ℕ) (frame : List UInt8) (timed : Bool)
  | takeDeparture
  | setPools (pools : PerPriority Pool)

variable (x : Metering clients depth stamps)

def timer : UInt32 :=
  .ofNat x.now

def arm : Metering clients depth stamps :=
  { x with armedAt := x.now, sentBits := 0 }

def reset : Metering clients depth stamps :=
  { x.arm with scheduler := x.scheduler.resetShaper x.timer }

def select (line : Line) : Metering clients depth stamps :=
  let y := if x.scheduler.armed then x else x.arm
  let (scheduler, selection) := x.scheduler.select line x.timer
  { y with scheduler, pending := selection <|> x.pending }

theorem select_eq (ha : x.scheduler.armed = true) {line : Line} (hl : line.shaperEnabled = true) :
    x.select line =
      let gated := x.scheduler.shaper.gate line x.timer (x.scheduler.peek .high)
      { x with
        scheduler := { x.scheduler with shaper := gated.1, armed := true }
        pending := (gated.2 <|> x.scheduler.peek .low) <|> x.pending } := by
  simp only [select, Scheduler.select_eq _ hl, if_pos ha]

theorem select_unarmed (ha : x.scheduler.armed = false) {line : Line}
    (hl : line.shaperEnabled = true) : x.select line = x.reset.select line := by
  simp only [select, Scheduler.select_eq _ hl, ha]
  rfl

def pendingLength : Option UInt32 := do
  let sel ← x.pending
  let header ← ((x.pools.get sel.handle.priority).header sel.handle).toOption
  return header.length

def pendingBits : ℕ :=
  match x.pending, x.pendingLength with
  | some sel, some length => if sel.handle.priority = .high then Shaper.wireBits length else 0
  | _, _ => 0

/-- The shaper keeps its slope and its limit, and no frame is longer than Ethernet has them. -/
def Permits (slope : UInt32) (limit : Int32) : Action → Prop
  | .select line => line.Shapes slope limit
  | .complete _ _ line =>
    line.Shapes slope limit ∧ ∀ length ∈ x.pendingLength, length.toNat ≤ Frame.maxTaggedSize
  | .wait _ | .reset | .enqueue _ _ | .send _ _ _ _ | .takeDeparture | .setPools _ => True

variable [Positive depth]

/-- A frame that is refused changes nothing. -/
def enqueue (client : ℕ) (h : Handle) : Metering clients depth stamps :=
  match x.scheduler.enqueue client h with
  | .ok scheduler => { x with scheduler }
  | .error _ => x

def complete (stamp stop : UInt32) (line : Line) :
    Except Fault (Metering clients depth stamps) :=
  match x.pending with
  | none => .ok x
  | some sel => do
    let p := sel.handle.priority
    let (scheduler, pool) ← x.scheduler.complete (x.pools.get p) sel stamp stop line
    return { x with
      scheduler
      pools := x.pools.set p pool
      pending := none
      sentBits := x.sentBits + x.pendingBits }

def step : Action → Except Fault (Metering clients depth stamps)
  | .wait ticks => .ok { x with now := x.now + ticks }
  | .reset => .ok x.reset
  | .select line => .ok (x.select line)
  | .complete stamp stop line => x.complete stamp stop line
  | .enqueue client h => .ok (x.enqueue client h)
  | .send p client frame timed => do
    let (scheduler, pool, _) ← x.scheduler.send (x.pools.get p) client frame timed x.timer
    return { x with scheduler, pools := x.pools.set p pool }
  | .takeDeparture => .ok { x with scheduler := x.scheduler.takeDeparture.2 }
  | .setPools pools => .ok { x with pools }

/-- A metering that is reached by permitted actions from a new scheduler. -/
inductive Reached (slope : UInt32) (limit : Int32) : Metering clients depth stamps → Prop
  | start (pools : PerPriority Pool) :
    Reached slope limit { scheduler := .empty clients depth stamps, pools }
  | step {x y : Metering clients depth stamps} (a : Action) : Reached slope limit x →
      x.Permits slope limit a → x.step a = .ok y → Reached slope limit y

instance (x : Metering clients depth stamps) (slope : UInt32) (limit : Int32) :
    (a : Action) → Decidable (x.Permits slope limit a)
  | .select line => inferInstanceAs (Decidable (line.Shapes slope limit))
  | .complete _ _ line =>
    -- Named, as it would be found by a search through all words where these are known to be finite.
    @instDecidableAnd (line.Shapes slope limit) _ inferInstance
      (Option.decidableForallMem x.pendingLength)
  | .wait _ | .reset | .enqueue _ _ | .send _ _ _ _ | .takeDeparture | .setPools _ =>
    inferInstanceAs (Decidable True)

def run (slope : UInt32) (limit : Int32) (x : Metering clients depth stamps) :
    List Action → Option (Metering clients depth stamps)
  | [] => some x
  | a :: as =>
    if x.Permits slope limit a then
      match x.step a with
      | .ok y => y.run slope limit as
      | .error _ => none
    else none

variable {x} in
theorem Reached.run {slope : UInt32} {limit : Int32} (h : Reached slope limit x) {as : List Action}
    {y : Metering clients depth stamps} (hr : x.run slope limit as = some y) :
    Reached slope limit y := by
  induction as generalizing x with
  | nil =>
    obtain rfl : x = y := Option.some.inj hr
    exact h
  | cons a as ih =>
    unfold Metering.run at hr
    split_ifs at hr with ha
    cases hs : x.step a with
    | error e => simp [hs] at hr
    | ok z =>
      rw [hs] at hr
      exact ih (h.step a ha hs) hr

/-- The high class is within the slope, and its pending frame can be paid. -/
structure Metered (slope : UInt32) (limit : Int32) (x : Metering clients depth stamps) : Prop where
  sorted : x.scheduler.Sorted
  payable : ∀ sel ∈ x.pending, sel.handle.priority = .high →
    0 ≤ limit.toInt ∧ 0 ≤ x.scheduler.shaper.credit.toInt
  covered : x.scheduler.armed = true →
    x.scheduler.shaper.Covered slope x.armedAt x.now x.sentBits

namespace Metered

variable {x} {slope : UInt32} {limit : Int32} {line : Line}

theorem start (pools : PerPriority Pool) :
    Metered slope limit { scheduler := .empty clients depth stamps, pools } where
  sorted := Scheduler.sorted_empty
  payable := by simp
  covered := by
    intro h
    cases h

omit [Positive depth]

theorem wait (h : Metered slope limit x) (ticks : ℕ) :
    Metered slope limit { x with now := x.now + ticks } where
  sorted := h.sorted
  payable := h.payable
  covered ha := (h.covered ha).later (Nat.le_add_right _ _)

theorem withScheduler (h : Metered slope limit x) {s : Scheduler clients depth stamps}
    (hs : s.Sorted) (hshaper : s.shaper = x.scheduler.shaper)
    (harmed : s.armed = x.scheduler.armed) (pools : PerPriority Pool) :
    Metered slope limit { x with scheduler := s, pools } where
  sorted := hs
  payable := by
    rw [hshaper]
    exact h.payable
  covered := by
    rw [hshaper, harmed]
    exact h.covered

theorem reset (h : Metered slope limit x) : Metered slope limit x.reset where
  sorted := h.sorted
  payable sel hsel hp := ⟨(h.payable sel hsel hp).1, le_rfl⟩
  covered _ := .restart slope x.now

theorem creditAt_nonneg (h : Metered slope limit x) (hl : line.Shapes slope limit) {sel : Selection}
    (hsel : sel ∈ (((x.scheduler.shaper.gate line x.timer (x.scheduler.peek .high)).2 <|>
      x.scheduler.peek .low) <|> x.pending)) (hp : sel.handle.priority = .high) :
    0 ≤ (x.scheduler.shaper.creditAt line x.timer).toInt := by
  cases hg : (x.scheduler.shaper.gate line x.timer (x.scheduler.peek .high)).2 with
  | some passed => exact Shaper.gate_admits hg
  | none =>
    cases hlow : x.scheduler.peek .low with
    | some low =>
      simp only [hg, hlow] at hsel
      obtain rfl := Option.some.inj hsel
      rw [h.sorted.peek hlow] at hp
      cases hp
    | none =>
      simp only [hg, hlow] at hsel
      obtain ⟨hlimit, hcredit⟩ := h.payable sel hsel hp
      rw [← hl.2.2] at hlimit
      exact Shaper.creditAt_nonneg hcredit hlimit

theorem select_armed (h : Metered slope limit x) (ha : x.scheduler.armed = true)
    (hl : line.Shapes slope limit) : Metered slope limit (x.select line) := by
  rw [select_eq x ha hl.1]
  refine ⟨h.sorted, fun sel hsel hp => ?_, fun _ => (h.covered ha).gate hl.2.1 _⟩
  have hcredit := h.creditAt_nonneg hl hsel hp
  refine ⟨?_, Shaper.gate_credit_nonneg hcredit _⟩
  rw [← hl.2.2]
  exact Shaper.limit_nonneg hcredit

theorem select (h : Metered slope limit x) (hl : line.Shapes slope limit) :
    Metered slope limit (x.select line) := by
  cases ha : x.scheduler.armed with
  | false =>
    rw [select_unarmed x ha hl.1]
    exact h.reset.select_armed rfl hl
  | true => exact h.select_armed ha hl

variable [Positive depth]

theorem complete (h : Metered slope limit x) {stamp stop : UInt32}
    (ha : x.Permits slope limit (.complete stamp stop line)) {y : Metering clients depth stamps}
    (hy : x.complete stamp stop line = .ok y) : Metered slope limit y := by
  unfold Metering.complete at hy
  cases hp : x.pending with
  | none =>
    rw [hp] at hy
    obtain rfl := Except.ok.inj hy
    exact h
  | some sel =>
    rw [hp] at hy
    obtain ⟨⟨s, pool⟩, hs, hy⟩ := bind_eq_ok_iff.mp hy
    obtain rfl := Except.ok.inj hy
    obtain ⟨header, hheader, harmed, hshaper, -, hsorted⟩ := Scheduler.complete_eq hs
    rw [x.scheduler.charge_eq _ ha.1.1] at hshaper
    have hlength : x.pendingLength = some header.length := by
      simp [pendingLength, hp, hheader, Except.toOption]
    refine ⟨hsorted h.sorted, by simp, fun hs => ?_⟩
    have hcovered := h.covered (harmed.symm.trans hs)
    change s.shaper.Covered slope x.armedAt x.now (x.sentBits + x.pendingBits)
    rw [hshaper]
    unfold pendingBits
    rw [hp, hlength]
    by_cases hhigh : sel.handle.priority = .high
    · simp only [if_pos hhigh]
      exact hcovered.spend (h.payable sel hp hhigh).2 (ha.2 _ hlength)
    · simp only [if_neg hhigh]
      exact hcovered

theorem step (h : Metered slope limit x) {a : Action} (ha : x.Permits slope limit a)
    {y : Metering clients depth stamps} (hy : x.step a = .ok y) : Metered slope limit y := by
  cases a with
  | wait ticks =>
    obtain rfl := Except.ok.inj hy
    exact h.wait ticks
  | reset =>
    obtain rfl := Except.ok.inj hy
    exact h.reset
  | select line =>
    obtain rfl := Except.ok.inj hy
    exact h.select ha
  | complete stamp stop line => exact h.complete ha hy
  | enqueue client handle =>
    obtain rfl := Except.ok.inj hy
    unfold Metering.enqueue
    cases he : x.scheduler.enqueue client handle with
    | error e => exact h
    | ok s =>
      obtain ⟨hsorted, hshaper, harmed⟩ := h.sorted.enqueue he
      exact h.withScheduler hsorted hshaper harmed x.pools
  | send p client frame timed =>
    obtain ⟨⟨s, pool, answer⟩, hs, hy⟩ := bind_eq_ok_iff.mp hy
    obtain rfl := Except.ok.inj hy
    rcases Scheduler.send_cases hs with rfl | ⟨handle, he⟩
    · exact h.withScheduler h.sorted rfl rfl _
    · obtain ⟨hsorted, hshaper, harmed⟩ := h.sorted.enqueue he
      exact h.withScheduler hsorted hshaper harmed _
  | takeDeparture =>
    obtain rfl := Except.ok.inj hy
    exact h.withScheduler (s := x.scheduler.takeDeparture.2) h.sorted rfl rfl x.pools
  | setPools pools =>
    obtain rfl := Except.ok.inj hy
    exact h.withScheduler h.sorted rfl rfl pools

end Metered

variable {x} {slope : UInt32} {limit : Int32} {line : Line}

theorem Reached.metered (h : Reached slope limit x) : Metered slope limit x := by
  induction h with
  | start pools => exact .start pools
  | step a _ ha hs ih => exact ih.step ha hs

/-- What the high class has sent since the shaper was armed is within the slope, and so within the
bandwidth. -/
theorem Reached.rate_bounded (h : Reached slope limit x) (hl : line.Shapes slope limit)
    {sel : Selection} (hsel : (x.scheduler.select line x.timer).2 = some sel)
    (hp : sel.handle.priority = .high) :
    let y := x.select line
    x.step (.select line) = .ok y ∧ y.scheduler.armed = true ∧ y.pending = some sel ∧
      y.sentBits ≤ slope.toNat * (y.now - y.armedAt) / 2 ^ 16 ∧
      ∀ bitsPerSecond timerHz : UInt32, idleSlope bitsPerSecond timerHz = .ok slope →
        y.sentBits ≤ bitsPerSecond.toNat * (y.now - y.armedAt) / timerHz.toNat := by
  intro y
  have hm : Metered slope limit y := h.metered.select hl
  have harmed : y.scheduler.armed = true := by
    change (x.scheduler.select line x.timer).1.armed = true
    rw [Scheduler.select_eq _ hl.1]
  have hpending : y.pending = some sel := by
    change ((x.scheduler.select line x.timer).2 <|> _) = _
    rw [hsel]
    rfl
  have hbits : y.sentBits * 2 ^ 16 ≤ slope.toNat * (y.now - y.armedAt) :=
    (hm.covered harmed).sentBits_le (hm.payable sel hpending hp).2
  refine ⟨rfl, harmed, hpending, (Nat.le_div_iff_mul_le (by decide)).mpr hbits, ?_⟩
  intro bitsPerSecond timerHz hslope
  obtain ⟨hpos, hle⟩ := idleSlope_le hslope
  rw [Nat.le_div_iff_mul_le hpos]
  apply Nat.le_of_mul_le_mul_right (c := 2 ^ 16) _ (by decide)
  calc y.sentBits * timerHz.toNat * 2 ^ 16
      = y.sentBits * 2 ^ 16 * timerHz.toNat := Nat.mul_right_comm _ _ _
    _ ≤ slope.toNat * (y.now - y.armedAt) * timerHz.toNat := Nat.mul_le_mul_right _ hbits
    _ = slope.toNat * timerHz.toNat * (y.now - y.armedAt) := Nat.mul_right_comm _ _ _
    _ ≤ bitsPerSecond.toNat * 2 ^ 16 * (y.now - y.armedAt) := Nat.mul_le_mul_right _ hle
    _ = bitsPerSecond.toNat * (y.now - y.armedAt) * 2 ^ 16 := Nat.mul_right_comm _ _ _

/-- The bound is met: at eight bits in each tick a second frame goes 84 ticks after one of 84 bytes. -/
theorem Reached.rate_bounded_tight :
    idleSlope 8000000 1000000 = .ok 524288 ∧ ∃ x : Metering 1 2 1, Reached 524288 0 x ∧
      ∃ line : Line, line.Shapes 524288 0 ∧ ∃ sel,
        (x.scheduler.select line x.timer).2 = some sel ∧ sel.handle.priority = .high ∧
        let y := x.select line
        y.now = 2 ^ 32 + 34 ∧ y.armedAt = 2 ^ 32 - 50 ∧ y.sentBits = 672 ∧
          y.sentBits ≤ 8000000 * (y.now - y.armedAt) / 1000000 := by
  let pool (p : Priority) : Pool :=
    { arena := .replicate 256 0, priority := p, roomy := by decide +kernel }
  let line : Line := { shaperEnabled := true, slope := 524288 }
  let frame : List UInt8 := .replicate 60 7
  let actions : List Action := [.wait (2 ^ 32 - 50), .send .high 0 frame true,
    .send .high 0 frame false, .send .low 0 frame false, .select line, .complete 0 0 line,
    .wait 83, .select line, .complete 0 0 line, .wait 1]
  have hslope : idleSlope 8000000 1000000 = .ok 524288 := rfl
  have hshapes : line.Shapes 524288 0 := ⟨rfl, rfl, rfl⟩
  let start : Metering 1 2 1 := { scheduler := .empty 1 2 1, pools := ⟨pool .low, pool .high⟩ }
  have hrun : (start.run 524288 0 actions).map (fun x =>
      ((x.scheduler.select line x.timer).2.map fun sel => sel.handle.priority,
        (x.select line).now, (x.select line).armedAt, (x.select line).sentBits)) =
      some (some .high, 2 ^ 32 + 34, 2 ^ 32 - 50, 672) := by
    decide +kernel
  obtain ⟨x, hx, he⟩ := Option.map_eq_some_iff.mp hrun
  simp only [Prod.mk.injEq, Option.map_eq_some_iff] at he
  obtain ⟨⟨sel, hsel, hp⟩, hnow, hat, hbits⟩ := he
  have h : Reached 524288 0 x := (Reached.start _).run hx
  obtain ⟨-, -, -, -, hrate⟩ := h.rate_bounded hshapes hsel hp
  exact ⟨hslope, x, h, line, hshapes, sel, hsel, hp, hnow, hat, hbits, hrate _ _ hslope⟩

end Metering

end Egress

end EtherBuffer
