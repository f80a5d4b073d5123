import EtherBuffer.Proofs.Pool.Session

/-! Where the records lie. No two share a byte, and the free space is what they leave, up to one tail.
-/
namespace EtherBuffer
open Record

namespace Pool

/-- Follow `n` links: the positions visited, and where the last link leads. -/
def walk (p : Pool) : ℕ → ℕ → Except Fault (List ℕ × ℕ)
  | 0, pos => .ok ([], pos)
  | n + 1, pos => do
    let next ← p.linkAt pos
    let (visited, stop) ← p.walk n next
    return (pos :: visited, stop)

/-- The stretch of `n` bytes from `start` on, continued at the start of the ring, has byte `i`. -/
def Covers (p : Pool) (start n i : ℕ) : Prop :=
  ∃ k < n, (start + k) % p.capacity = i

theorem covers_mod (p : Pool) (v n i : ℕ) :
    p.Covers (v % p.capacity) n i ↔ ∃ x, v ≤ x ∧ x < v + n ∧ x % p.capacity = i := by
  constructor
  · rintro ⟨k, hk, he⟩
    exact ⟨v + k, by omega, by omega, by rwa [← Nat.mod_add_mod]⟩
  · rintro ⟨x, hx, hx', he⟩
    refine ⟨x - v, by omega, ?_⟩
    rwa [Nat.mod_add_mod, Nat.add_sub_cancel' hx]

/-- Stretches one behind the other in one lap do not meet. -/
theorem not_covers {p : Pool} {base a b m n i : ℕ} (ha : base ≤ a) (hab : a + m ≤ b)
    (hb : b + n ≤ base + p.capacity) (h : p.Covers (a % p.capacity) m i) :
    ¬ p.Covers (b % p.capacity) n i := by
  rw [covers_mod] at h ⊢
  obtain ⟨x, hx, hx', he⟩ := h
  rintro ⟨y, hy, hy', he'⟩
  have := eq_of_mod_eq (a := base) (by omega) (by omega) (by omega) (by omega) (he.trans he'.symm)
  omega

namespace Holds

variable {p : Pool} {base : ℕ} {rs : List Receipt}

theorem walk_eq (as : List Receipt) (h : p.Holds base (as ++ rs)) :
    p.walk rs.length (Receipt.stop p.capacity base as % p.capacity) =
      .ok (rs.map (·.handle.position), p.writeOffset) := by
  induction rs generalizing as with
  | nil =>
    rw [h.writeOffset_eq, List.append_nil]
    rfl
  | cons r rs ih =>
    have hlink := h.linkAt_handle
    have hpos := h.position_eq
    have hrest := ih (as ++ [r]) (by simpa using h)
    rw [Receipt.stop_append, Receipt.stop_cons, Receipt.stop_nil] at hrest
    rw [List.length_cons, walk, ← hpos, hlink, ok_bind, hrest]
    rfl

theorem at_index (h : p.Holds base rs) {i : ℕ} (hi : i < rs.length) :
    let v := Receipt.stop p.capacity base (rs.take i)
    base ≤ v ∧ v % p.capacity + minUsage ≤ p.capacity ∧ rs[i].handle.position = v % p.capacity ∧
      v + rs[i].size ≤ Receipt.stop p.capacity base rs ∧
      ∀ j, i < j → v + rs[i].size ≤ Receipt.stop p.capacity base (rs.take j) := by
  have hsplit : rs = rs.take i ++ rs[i] :: rs.drop (i + 1) := by
    rw [← List.drop_eq_getElem_cons hi, List.take_append_drop]
  have hh := h
  rw [hsplit] at hh
  obtain ⟨h₁, h₂, -, h₃⟩ := hh.at_record
  have hsize : Receipt.stop p.capacity base (rs.take i) + rs[i].size ≤
      rs[i].after p.capacity (Receipt.stop p.capacity base (rs.take i)) := by
    have := extent_le_stride p.capacity (Receipt.stop p.capacity base (rs.take i))
      rs[i].payload.length
    unfold Receipt.after Receipt.size
    omega
  refine ⟨h₁, h₂.1, hh.position_eq, by rw [← hsplit] at h₃; omega, fun j hj => ?_⟩
  have htake : rs.take j = rs.take i ++ rs[i] :: (rs.take j).drop (i + 1) := by
    by_cases hjl : j ≤ rs.length
    · have hl : i < (rs.take j).length := by rw [List.length_take]; omega
      have he : rs[i] = (rs.take j)[i] := List.getElem_take.symm
      rw [he, ← List.drop_eq_getElem_cons hl]
      conv_lhs => rw [← List.take_append_drop i (rs.take j), List.take_take, Nat.min_eq_left hj.le]
    · rw [List.take_of_length_le (show rs.length ≤ j by omega)]
      exact hsplit
  rw [htake, Receipt.stop_append, Receipt.stop_cons]
  exact hsize.trans (Receipt.le_stop _ _ _)

theorem pairwise_not_covers (h : p.Holds base rs) :
    rs.Pairwise fun a b => ∀ i, p.Covers a.handle.position a.size i →
      ¬ p.Covers b.handle.position b.size i := by
  rw [List.pairwise_iff_getElem]
  intro i j hi hj hij k
  obtain ⟨h₁, -, h₂, -, h₃⟩ := h.at_index hi
  obtain ⟨-, -, h₄, h₅, -⟩ := h.at_index hj
  rw [h₂, h₄]
  exact not_covers h₁ (h₃ j hij) (h₅.trans h.stop_le)

theorem not_covers_free (h : p.Holds base rs) {r : Receipt} (hr : r ∈ rs) (i : ℕ)
    (hi : p.Covers r.handle.position r.size i) : ¬ p.Covers p.writeOffset p.freeSpace i := by
  obtain ⟨j, hj, rfl⟩ := List.mem_iff_getElem.mp hr
  obtain ⟨h₁, -, h₂, h₃, -⟩ := h.at_index hj
  have hf := h.freeSpace_eq
  rw [h₂] at hi
  rw [h.writeOffset_eq]
  exact not_covers h₁ h₃ (by omega) hi

theorem positions_nodup (h : p.Holds base rs) : (rs.map (·.handle.position)).Nodup := by
  rw [List.Nodup, List.pairwise_map, List.pairwise_iff_getElem]
  intro i j hi hj hij he
  obtain ⟨h₁, -, h₂, -, h₃⟩ := h.at_index hi
  obtain ⟨h₄, -, h₅, h₆, -⟩ := h.at_index hj
  have h₇ := h₃ j hij
  have h₈ := h.stop_le
  have hsi := le_extent rs[i].payload.length
  have hsj := le_extent rs[j].payload.length
  have h₀ : 0 < payloadOffset := by decide
  unfold Receipt.size at h₆ h₇
  rw [h₂, h₅] at he
  have := eq_of_mod_eq (a := base) h₁ (by omega) h₄ (by omega) he
  omega

theorem position_le (h : p.Holds base rs) {r : Receipt} (hr : r ∈ rs) :
    r.handle.position ≤ p.lastStart := by
  obtain ⟨j, hj, rfl⟩ := List.mem_iff_getElem.mp hr
  obtain ⟨-, h₁, h₂, -, -⟩ := h.at_index hj
  rw [h₂, lastStart]
  omega

end Holds

theorem Chain.stop_le {p : Pool} {v : ℕ} {rs : List Receipt} (h : p.Chain v rs) :
    v + (rs.map Receipt.size).sum ≤ Receipt.stop p.capacity v rs ∧
      Receipt.stop p.capacity v rs ≤ v + (rs.map Receipt.size).sum +
        80 * (Receipt.stop p.capacity v rs / p.capacity - v / p.capacity) := by
  induction rs generalizing v with
  | nil => simp
  | cons r rs ih =>
    obtain ⟨h₁, -, h₃⟩ := h
    obtain ⟨i₁, i₂⟩ := ih h₃
    have hlow := extent_le_stride p.capacity v r.payload.length
    have hhigh := stride_le (n := r.payload.length) p.capacity_mod h₁
    have hmono : v / p.capacity ≤ r.after p.capacity v / p.capacity :=
      Nat.div_le_div_right (by unfold Receipt.after; omega)
    have hmono' : r.after p.capacity v / p.capacity ≤
        Receipt.stop p.capacity (r.after p.capacity v) rs / p.capacity :=
      Nat.div_le_div_right (Receipt.le_stop _ _ _)
    have ha : r.after p.capacity v = v + stride p.capacity v r.payload.length := rfl
    have hs : r.size = extent r.payload.length := rfl
    rw [List.map_cons, List.sum_cons, Receipt.stop_cons]
    rw [← ha] at hhigh
    omega

theorem Holds.space {p : Pool} {base : ℕ} {rs : List Receipt} (h : p.Holds base rs) :
    p.freeSpace + (rs.map Receipt.size).sum ≤ p.capacity ∧
      p.capacity ≤ p.freeSpace + (rs.map Receipt.size).sum + 80 := by
  obtain ⟨h₁, h₂⟩ := h.chain.stop_le
  have hf := h.freeSpace_eq
  have hlap : Receipt.stop p.capacity base rs / p.capacity ≤ base / p.capacity + 1 := by
    rcases lap_cases p.capacity_pos (Receipt.le_stop p.capacity base rs) h.stop_le with h | h <;>
      omega
  omega

end Pool

namespace Session

/-- The links join the records in the order of their commits, none meets another or the free space, and
all else is one short tail. -/
structure Orderly (s : Session) : Prop where
  write_aligned : s.pool.writeOffset % 4 = 0
  write_le : s.pool.writeOffset ≤ s.pool.lastStart
  read_aligned : s.pool.readOffset % 4 = 0
  read_le : s.pool.readOffset ≤ s.pool.lastStart
  walk_eq : s.pool.walk s.pool.live s.pool.readOffset =
    .ok (s.ring.map (·.handle.position), s.pool.writeOffset)
  length_ring : s.ring.length = s.pool.live
  positions_nodup : (s.ring.map (·.handle.position)).Nodup
  position_le : ∀ r ∈ s.ring, r.handle.position ≤ s.pool.lastStart
  meet : s.pool.live = 0 → s.pool.readOffset = s.pool.writeOffset
  disjoint : s.ring.Pairwise fun a b => ∀ i, s.pool.Covers a.handle.position a.size i →
    ¬ s.pool.Covers b.handle.position b.size i
  disjoint_free : ∀ r ∈ s.ring, ∀ i, s.pool.Covers r.handle.position r.size i →
    ¬ s.pool.Covers s.pool.writeOffset s.pool.freeSpace i
  space_le : s.pool.freeSpace + (s.ring.map Receipt.size).sum ≤ s.pool.capacity
  le_space : s.pool.capacity ≤ s.pool.freeSpace + (s.ring.map Receipt.size).sum + 80
  live_mem : ∀ r ∈ s.receipts, r.releases = 0 → r ∈ s.ring
  releases_le : ∀ r ∈ s.receipts, r.releases ≤ 1

theorem Kept.orderly {s : Session} (h : s.Kept) : s.Orderly := by
  obtain ⟨base, gone, held, h⟩ := h
  have hh := h.holds
  have hring := h.ring_eq
  have hwalk := Pool.Holds.walk_eq [] hh
  rw [Receipt.stop_nil, ← hh.readOffset_eq, ← hh.live_eq] at hwalk
  constructor
  · rw [hh.writeOffset_eq]
    exact hh.stop_start.mod s.pool.capacity_mod
  · have := hh.stop_start.1
    rw [hh.writeOffset_eq, Pool.lastStart]
    omega
  · rw [hh.readOffset_eq]
    exact hh.start.mod s.pool.capacity_mod
  · have := hh.start.1
    rw [hh.readOffset_eq, Pool.lastStart]
    omega
  · rw [hring]
    exact hwalk
  · rw [hring, hh.live_eq]
  · rw [hring]
    exact hh.positions_nodup
  · rw [hring]
    exact fun r hr => hh.position_le hr
  · intro hl
    have hnil : held = [] := List.eq_nil_of_length_eq_zero (hh.live_eq.symm.trans hl)
    rw [hh.readOffset_eq, hh.writeOffset_eq, hnil, Receipt.stop_nil]
  · rw [hring]
    exact hh.pairwise_not_covers
  · rw [hring]
    exact fun r hr => hh.not_covers_free hr
  · rw [hring]
    exact hh.space.1
  · rw [hring]
    exact hh.space.2
  · intro r hr hz
    rw [hring]
    rw [h.receipts_eq] at hr
    rcases List.mem_append.mp hr with hr | hr
    · have := h.gone_released r hr
      simp [Receipt.isReleased, hz] at this
    · exact hr
  · exact h.releases_le

theorem Kept.stateAt_eq {s : Session} (h : s.Kept) {r : Receipt} (hr : r ∈ s.ring) :
    s.pool.stateAt r.handle.position = .ok r.state := by
  obtain ⟨base, gone, held, h⟩ := h
  rw [h.ring_eq] at hr
  obtain ⟨as, bs, rfl⟩ := List.mem_iff_append.mp hr
  exact h.holds.stateAt_handle

/-- Under the rules of use the ring stays orderly, and no request faults but one for a size beyond
machine words. -/
theorem reached_orderly (arena : Array UInt8) (priority : Priority)
    (hmin : minUsage ≤ arena.size) (hmax : arena.size < 2 ^ 32) :
    ∃ p, Pool.create arena priority = .ok p ∧
      ∀ s, Reached Allows ⟨p, none, []⟩ s → s.Orderly ∧
        ∀ o, s.Allows o →
          (¬ o.Oversized → ∃ t, s.step o = .ok t) ∧
          (o.Oversized → s.step o = .error .overflow) := by
  have hr : minUsage ≤ wholeWords arena.size := by
    have : minUsage = 84 := rfl
    unfold wholeWords
    omega
  have hp : Pool.create arena priority = .ok { arena, priority, roomy := hr } := by
    rw [Pool.create, dif_pos hr]
  refine ⟨_, hp, fun s hs => ?_⟩
  have hk : s.Kept := hs.kept (fun _ _ h => h) ⟨_, _, _, Sound.create hp hmax⟩
  refine ⟨hk.orderly, fun o ho => ⟨fun hn => ?_, s.step_oversized⟩⟩
  obtain ⟨t, ht, -⟩ := hk.step ho hn
  exact ⟨t, ht⟩

/-- A ring without free space, whose second record leaves a tail and was released before the first one.
-/
theorem reached_orderly_full :
    minUsage ≤ (Array.replicate 200 (0 : UInt8)).size ∧
      (Array.replicate 200 (0 : UInt8)).size < 2 ^ 32 ∧
      ∃ p s, Pool.create (Array.replicate 200 0) .low = .ok p ∧
        Reached Allows ⟨p, none, []⟩ s ∧ s.Orderly ∧ s.pool.live = 2 ∧ s.pool.freeSpace = 0 ∧
        s.receipts.map (·.releases) = [0, 1] := by
  have hmin : minUsage ≤ (Array.replicate 200 (0 : UInt8)).size := by decide +kernel
  have hmax : (Array.replicate 200 (0 : UInt8)).size < 2 ^ 32 := by decide +kernel
  obtain ⟨p, hp, h⟩ := reached_orderly _ .low hmin hmax
  let requests : List Request := [.reserve, .write (.replicate 60 7), .commit {}, .reserve,
    .write (.replicate 20 9), .commit {}, .free 1]
  have hserve : ((Pool.create (Array.replicate 200 0) .low).toOption.bind fun p =>
      ((Session.mk p none []).serve Allows requests).map fun s =>
        (s.pool.live, s.pool.freeSpace, s.receipts.map (·.releases))) = some (2, 0, [0, 1]) := by
    decide +kernel
  rw [hp] at hserve
  obtain ⟨s, hs, he⟩ := Option.map_eq_some_iff.mp hserve
  simp only [Prod.mk.injEq] at he
  have hr := reached_of_serve hs
  exact ⟨hmin, hmax, p, s, hp, hr, (h s hr).1, he⟩

end Session

end EtherBuffer
