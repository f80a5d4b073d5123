import EtherBuffer.Pool.Cursor
import EtherBuffer.Proofs.Pool.Integrity
import EtherBuffer.Proofs.Pool.Layout

/-! Following the records of a pool. The links ahead of a cursor stay as they are as long as no record
there is released. -/
namespace EtherBuffer
open Record

theorem Receipt.length_le_stop (c v : ℕ) (rs : List Receipt) : v + rs.length ≤ stop c v rs := by
  induction rs generalizing v with
  | nil => exact le_rfl
  | cons r rs ih =>
    have h₁ := r.le_after c v
    have h₂ := ih (r.after c v)
    have h₃ : 0 < payloadOffset := by decide
    rw [stop_cons, List.length_cons]
    omega

def Request.Produces : Request → Prop
  | .reserve | .reserveAtLeast _ | .write _ | .commit _ => True
  | .setHeader _ _ | .updateHeader _ _ | .takeShare _ | .free _ => False

instance : (o : Request) → Decidable o.Produces
  | .reserve | .reserveAtLeast _ | .write _ | .commit _ => inferInstanceAs (Decidable True)
  | .setHeader _ _ | .updateHeader _ _ | .takeShare _ | .free _ => inferInstanceAs (Decidable False)

instance : (o : Request) → Decidable o.Oversized
  | .reserveAtLeast n => inferInstanceAs (Decidable (sizeLimit ≤ payloadOffset + n + 3))
  | .reserve | .write _ | .commit _ | .setHeader _ _ | .updateHeader _ _ | .takeShare _ | .free _ =>
    inferInstanceAs (Decidable False)

namespace Session

variable {s t : Session} {base : ℕ} {gone held : List Receipt} {i j k : ℕ} {r : Receipt}

def place (s : Session) (k : ℕ) : ℕ :=
  (s.receipts[k]?.map (·.handle.position)).getD s.pool.writeOffset

theorem place_of_getElem? (h : s.receipts[i]? = some r) : s.place i = r.handle.position := by
  rw [place, h]
  rfl

theorem place_of_length_le (h : s.receipts.length ≤ i) : s.place i = s.pool.writeOffset := by
  rw [place, List.getElem?_eq_none h]
  rfl

namespace Sound

theorem handle_of_le (h : s.Sound base gone held) (hi : s.receipts[i]? = some r)
    (hle : gone.length ≤ i) : r.handle = .at s.pool.priority r.handle.position := by
  obtain ⟨as, bs, hheld, -⟩ := h.split_of_le hi hle
  have hh := h.holds
  rw [hheld] at hh
  rw [hh.position_eq]
  exact hh.at_record.2.2.1.handle

theorem handle_eq (h : s.Sound base gone held) (hi : s.receipts[i]? = some r)
    (hr : r.releases = 0) : r.handle = .at s.pool.priority r.handle.position :=
  h.handle_of_le hi (h.gone_le hi (by simp [Receipt.isReleased, hr]))

theorem stateAt_eq (h : s.Sound base gone held) (hi : s.receipts[i]? = some r)
    (hr : r.releases = 0) : s.pool.stateAt r.handle.position = .ok .live := by
  have hlive : r.isReleased = false := by simp [Receipt.isReleased, hr]
  obtain ⟨as, bs, hheld, -⟩ := h.split hi hlive
  have hh := h.holds
  rw [hheld] at hh
  rw [hh.stateAt_handle, Receipt.state, hlive, if_neg (by simp)]

theorem linkAt_of_le (h : s.Sound base gone held) (hi : s.receipts[i]? = some r)
    (hle : gone.length ≤ i) : s.pool.linkAt r.handle.position = .ok (s.place (i + 1)) := by
  obtain ⟨as, bs, hheld, hlen⟩ := h.split_of_le hi hle
  have hh := h.holds
  have hrec := h.receipts_eq
  rw [hheld] at hh hrec
  rw [hh.linkAt_handle]
  congr 1
  cases bs with
  | nil =>
    have hend : s.receipts.length ≤ i + 1 := by
      rw [hrec]
      simp only [List.length_append, List.length_singleton]
      omega
    rw [place_of_length_le hend, hh.writeOffset_eq, Receipt.stop_append, Receipt.stop_cons,
      Receipt.stop_nil]
  | cons t bs =>
    have hnext : s.receipts[i + 1]? = some t := by
      rw [hrec, List.getElem?_append_right (by omega), List.getElem?_append_right (by omega)]
      have : i + 1 - gone.length - as.length = 1 := by omega
      rw [this]
      rfl
    have hh' : s.pool.Holds base ((as ++ [r]) ++ t :: bs) := by simpa using hh
    rw [place_of_getElem? hnext, hh'.position_eq, Receipt.stop_append, Receipt.stop_cons,
      Receipt.stop_nil]

theorem handle_ne (h : s.Sound base gone held) (hi : s.receipts[i]? = some r)
    (hr : r.releases = 0) (hij : i < j) {t : Receipt} (hj : s.receipts[j]? = some t) :
    t.handle ≠ r.handle := by
  obtain ⟨as, bs, hheld, hlen, -⟩ := h.split hi (by simp [Receipt.isReleased, hr])
  have hnd := h.holds.positions_nodup
  have hrec := h.receipts_eq
  rw [hheld] at hnd hrec
  have hmem : t ∈ bs := by
    rw [hrec, List.getElem?_append_right (by omega), List.getElem?_append_right (by omega),
      List.getElem?_cons, if_neg (by omega)] at hj
    exact List.mem_of_getElem? hj
  rw [List.map_append, List.map_cons] at hnd
  have hnd' := (List.nodup_cons.mp (List.nodup_append.mp hnd).2.1).1
  intro he
  exact hnd' (List.mem_map.mpr ⟨t, hmem, by rw [he]⟩)

theorem numberOf_eq (h : s.Sound base gone held) (hi : s.receipts[i]? = some r)
    (hr : r.releases = 0) : Receipt.numberOf r.handle s.receipts = i := by
  obtain ⟨hlt, rfl⟩ := List.getElem?_eq_some_iff.mp hi
  refine (List.findIdx_eq hlt).mpr ⟨by simp [hr], fun j hj => ?_⟩
  by_contra hfound
  obtain ⟨hhandle, hlive⟩ : s.receipts[j].handle = s.receipts[i].handle ∧
      s.receipts[j].releases = 0 := by simpa using hfound
  have hget : s.receipts[j]? = some s.receipts[j] := List.getElem?_eq_getElem (by omega)
  exact h.handle_ne hget hlive hj hi hhandle.symm

theorem live_lt (h : s.Sound base gone held) : held.length < 2 ^ 32 := by
  have h₁ := Receipt.length_le_stop s.pool.capacity base held
  have h₂ := h.holds.stop_le
  have h₃ := h.holds.small
  have h₄ := s.pool.capacity_le_size
  omega

end Sound

theorem endCursor_fresh {p : Pool} {priority : Priority} (hp : p.Fresh priority) :
    p.endCursor = .start := by
  obtain ⟨arena, -, hp⟩ := hp
  unfold Pool.create at hp
  split_ifs at hp
  obtain rfl := Except.ok.inj hp
  rfl

theorem step_produces {o : Request} (hs : s.step o = .ok t) (hk : s.Kept) (ho : s.Allows o)
    (hp : o.Produces) :
    t.pool.priority = s.pool.priority ∧
      (t.receipts = s.receipts ∧ t.pool.writeOffset = s.pool.writeOffset ∨
        ∃ r, t.receipts = s.receipts ++ [r] ∧ r.releases = 0 ∧
          r.handle = .at s.pool.priority s.pool.writeOffset) := by
  obtain ⟨base, gone, held, h⟩ := hk
  cases o with
  | reserve =>
    obtain rfl := Except.ok.inj hs
    exact ⟨rfl, Or.inl ⟨rfl, rfl⟩⟩
  | reserveAtLeast n =>
    obtain ⟨res, -, hres⟩ := bind_eq_ok_iff.mp hs
    cases res <;> obtain rfl := Except.ok.inj hres <;> exact ⟨rfl, Or.inl ⟨rfl, rfl⟩⟩
  | write bytes =>
    obtain ⟨d, hd⟩ := Option.isSome_iff_exists.mp ho
    obtain ⟨q, res, fits, hq, hst, -⟩ := h.write hd bytes
    simp only [step, hd, hq] at hs
    obtain rfl := Except.ok.inj hs
    exact ⟨hst.priority_eq, Or.inl ⟨rfl, hst.writeOffset_eq⟩⟩
  | commit header =>
    obtain ⟨d, hd⟩ := Option.isSome_iff_exists.mp ho
    obtain ⟨q, handle, hq, hprio, hhandle, -⟩ := h.commit hd header
    simp only [step, hd, hq] at hs
    obtain rfl := Except.ok.inj hs
    rcases hhandle with ⟨rfl, hw⟩ | rfl
    · exact ⟨hprio, Or.inl ⟨List.append_nil _, hw⟩⟩
    · exact ⟨hprio, Or.inr ⟨_, rfl, rfl, rfl⟩⟩
  | setHeader i header => exact absurd hp id
  | updateHeader i f => exact absurd hp id
  | takeShare i => exact absurd hp id
  | free i => exact absurd hp id

/-- The others stay, and so do the handle and the payload of the record. -/
theorem step_changes {o : Request} (hs : s.step o = .ok t) (hk : s.Kept) (ho : s.Allows o)
    (hp : ¬ o.Produces) :
    ∃ i r r' q, s.receipts[i]? = some r ∧ r'.handle = r.handle ∧ r'.payload = r.payload ∧
      (r'.releases = r.releases ∨ o = .free i) ∧ (∃ lo hi, s.pool.Steady q lo hi) ∧
      t = { s with pool := q, receipts := s.receipts.set i r' } := by
  obtain ⟨base, gone, held, h⟩ := hk
  cases o with
  | reserve => exact absurd trivial hp
  | reserveAtLeast n => exact absurd trivial hp
  | write bytes => exact absurd trivial hp
  | commit header => exact absurd trivial hp
  | setHeader i header =>
    obtain ⟨r, hi, hr⟩ := ho
    obtain ⟨q, hq, hst, -⟩ := h.setHeader hi hr header
    rw [step, onRecord_eq hi, hq] at hs
    obtain rfl := Except.ok.inj hs
    exact ⟨i, r, { r with header }, q, hi, rfl, rfl, .inl rfl, ⟨_, _, hst⟩, rfl⟩
  | updateHeader i f =>
    obtain ⟨r, hi, hr⟩ := ho
    obtain ⟨q, hq, hst, -⟩ := h.setHeader hi hr (f r.header)
    rw [step, onRecord_eq hi, Pool.updateHeader, h.header_eq hi hr, ok_bind, hq] at hs
    obtain rfl := Except.ok.inj hs
    exact ⟨i, r, { r with header := f r.header }, q, hi, rfl, rfl, .inl rfl, ⟨_, _, hst⟩, rfl⟩
  | takeShare i =>
    obtain ⟨r, hi, hr⟩ := ho
    obtain ⟨q, hq, hst, -⟩ := h.takeShare hi hr
    rw [step, onRecord_eq hi, hq] at hs
    obtain rfl := Except.ok.inj hs
    exact ⟨i, r, r.taken, q, hi, r.taken_handle, taken_payload r, .inl r.taken_releases, ⟨_, _, hst⟩, rfl⟩
  | free i =>
    obtain ⟨r, hi, hr⟩ := ho
    obtain ⟨q, hq, hst, -⟩ := h.free hi hr
    rw [step, onRecord_eq hi, hq] at hs
    obtain rfl := Except.ok.inj hs
    exact ⟨i, r, r.release, q, hi, rfl, rfl, .inr rfl, ⟨_, _, hst⟩, rfl⟩

/-- The cursor has passed the first `k` records of the session, and all others take space. -/
structure Rests (s : Session) (c : Cursor) (k : ℕ) : Prop where
  kept : s.Kept
  le_length : k ≤ s.receipts.length
  in_ring : s.receipts.length ≤ k + s.pool.live
  passed_eq : c.passed = .ofNat k
  offset_eq : c.offset = s.place k

namespace Rests

variable {c : Cursor}

theorem gone_le (h : s.Rests c k) (hs : s.Sound base gone held) : gone.length ≤ k := by
  have hring := h.in_ring
  rw [hs.receipts_eq, List.length_append, hs.holds.live_eq] at hring
  omega

theorem length_lt (h : s.Rests c k) : s.receipts.length < k + 2 ^ 32 := by
  obtain ⟨base, gone, held, hs⟩ := h.kept
  have hring := h.in_ring
  have hlive := hs.live_lt
  rw [hs.holds.live_eq] at hring
  omega

theorem passed_eq_iff (h : s.Rests c k) :
    c.passed = s.pool.committed ↔ k = s.receipts.length := by
  obtain ⟨base, gone, held, hs⟩ := h.kept
  rw [h.passed_eq, hs.committed_eq]
  constructor
  · intro he
    -- The counts are words, but fewer records lie ahead of the cursor than a word counts.
    have hmod := congrArg UInt32.toNat he
    rw [UInt32.toNat_ofNat', UInt32.toNat_ofNat'] at hmod
    exact Pool.eq_of_mod_eq (a := k) le_rfl (by omega) h.le_length h.length_lt hmod
  · intro he
    rw [he]

/-- The cursor stands at the record with the number `k`. -/
theorem atCursor_eq (h : s.Rests c k) : s.pool.atCursor c = s.receipts[k]?.map (·.handle) := by
  obtain ⟨base, gone, held, hs⟩ := h.kept
  unfold Pool.atCursor
  by_cases hk : k = s.receipts.length
  · rw [if_pos (h.passed_eq_iff.mpr hk), List.getElem?_eq_none hk.ge]
    rfl
  · have hget := List.getElem?_eq_getElem (lt_of_le_of_ne h.le_length hk)
    rw [if_neg (mt h.passed_eq_iff.mp hk), h.offset_eq, place_of_getElem? hget, hget,
      ← hs.handle_of_le hget (h.gone_le hs)]
    rfl

theorem pending_eq (h : s.Rests c k) : s.pool.pending c = s.receipts.length - k := by
  obtain ⟨base, gone, held, hs⟩ := h.kept
  have hlt := h.length_lt
  have hsub : UInt32.ofNat s.receipts.length - .ofNat k = .ofNat (s.receipts.length - k) :=
    (UInt32.ofNat_sub h.le_length).symm
  rw [Pool.pending, hs.committed_eq, h.passed_eq, hsub, UInt32.toNat_ofNat',
    Nat.mod_eq_of_lt (by omega)]

theorem advance (h : s.Rests c k) (hk : s.receipts[k]? = some r) :
    ∃ c', s.pool.advance c = .ok c' ∧ s.Rests c' (k + 1) := by
  obtain ⟨base, gone, held, hs⟩ := h.kept
  have hlt : k < s.receipts.length := (List.getElem?_eq_some_iff.mp hk).1
  have hring := h.in_ring
  have hlink := hs.linkAt_of_le hk (h.gone_le hs)
  refine ⟨⟨s.place (k + 1), c.passed + 1⟩, ?_, h.kept, hlt, by omega, ?_, rfl⟩
  · rw [Pool.advance, if_neg (mt h.passed_eq_iff.mp (by omega)), h.offset_eq, place_of_getElem? hk,
      hlink]
    rfl
  · rw [h.passed_eq, UInt32.ofNat_add]
    rfl

end Rests

/-- The cursor stands in front of the record with the number `k`, or behind the last one. -/
structure Stands (s : Session) (c : Cursor) (k : ℕ) : Prop where
  kept : s.Kept
  le_length : k ≤ s.receipts.length
  passed_eq : c.passed = .ofNat k
  offset_eq : c.offset = s.place k
  ahead : ∀ i, k ≤ i → ∀ r ∈ s.receipts[i]?, r.releases = 0

namespace Stands

variable {c : Cursor}

theorem endCursor (hk : s.Kept) : s.Stands s.pool.endCursor s.receipts.length where
  kept := hk
  le_length := le_rfl
  passed_eq := by
    obtain ⟨base, gone, held, h⟩ := hk
    exact h.committed_eq
  offset_eq := (place_of_length_le le_rfl).symm
  ahead i hi r hr := by
    rw [List.getElem?_eq_none hi] at hr
    cases hr

theorem rests (h : s.Stands c k) : s.Rests c k where
  kept := h.kept
  le_length := h.le_length
  in_ring := by
    obtain ⟨base, gone, held, hs⟩ := h.kept
    rcases h.le_length.lt_or_eq with hlt | rfl
    · have hget := List.getElem?_eq_getElem hlt
      have hgone := hs.gone_le hget (by simp [Receipt.isReleased, h.ahead k le_rfl _ hget])
      rw [hs.receipts_eq, List.length_append, hs.holds.live_eq]
      omega
    · exact Nat.le_add_right _ _
  passed_eq := h.passed_eq
  offset_eq := h.offset_eq

theorem passed_eq_iff (h : s.Stands c k) :
    c.passed = s.pool.committed ↔ k = s.receipts.length :=
  h.rests.passed_eq_iff

theorem atCursor_eq (h : s.Stands c k) : s.pool.atCursor c = s.receipts[k]?.map (·.handle) :=
  h.rests.atCursor_eq

theorem pending_eq (h : s.Stands c k) : s.pool.pending c = s.receipts.length - k :=
  h.rests.pending_eq

theorem advance (h : s.Stands c k) (hk : s.receipts[k]? = some r) :
    ∃ c', s.pool.advance c = .ok c' ∧ s.Stands c' (k + 1) := by
  obtain ⟨c', hc, hr⟩ := h.rests.advance hk
  exact ⟨c', hc, h.kept, hr.le_length, hr.passed_eq, hr.offset_eq, fun i hi => h.ahead i (by omega)⟩

theorem advance_end (h : s.Stands c k) (hk : k = s.receipts.length) : s.pool.advance c = .ok c :=
  if_pos (h.passed_eq_iff.mpr hk)

theorem produce (h : s.Stands c k) {o : Request} (ho : s.Allows o) (hp : o.Produces)
    (hn : ¬ o.Oversized) : ∃ t, s.step o = .ok t ∧ t.Stands c k ∧
      t.pool.priority = s.pool.priority ∧ ∃ new, t.receipts = s.receipts ++ new := by
  obtain ⟨t, ht, hk⟩ := h.kept.step ho hn
  obtain ⟨base, gone, held, hs⟩ := h.kept
  have hw : s.pool.writeOffset < 2 ^ 32 := by
    have h₁ := Nat.mod_lt (Receipt.stop s.pool.capacity base held) s.pool.capacity_pos
    have h₂ := s.pool.capacity_le_size
    have h₃ := hs.holds.small
    rw [hs.holds.writeOffset_eq]
    omega
  have hle := h.le_length
  obtain ⟨hprio, ⟨hrec, hwrite⟩ | ⟨r, hrec, hr, hhandle⟩⟩ := step_produces ht h.kept ho hp
  · refine ⟨t, ht, ⟨hk, by rwa [hrec], h.passed_eq, ?_, ?_⟩, hprio, [],
      by rw [hrec, List.append_nil]⟩
    · rw [h.offset_eq, place, place, hrec, hwrite]
    · rw [hrec]
      exact h.ahead
  · refine ⟨t, ht, ⟨hk, ?_, h.passed_eq, ?_, ?_⟩, hprio, [r], hrec⟩
    · rw [hrec, List.length_append]
      omega
    · rw [h.offset_eq]
      rcases hle.lt_or_eq with hlt | rfl
      · rw [place, place, hrec, List.getElem?_append_left hlt, List.getElem?_eq_getElem hlt]
        rfl
      · have hnew : t.receipts[s.receipts.length]? = some r := by rw [hrec]; simp
        rw [place_of_length_le le_rfl, place_of_getElem? hnew, hhandle, Pool.position_at hw]
    · intro i hi x hx
      rw [hrec] at hx
      by_cases hlt : i < s.receipts.length
      · rw [List.getElem?_append_left hlt] at hx
        exact h.ahead i hi x hx
      · rw [List.getElem?_append_right (by omega)] at hx
        obtain rfl : x = r := by simpa using List.mem_of_getElem? hx
        exact hr

theorem change (h : s.Stands c k) (hi : s.receipts[i]? = some r) {r' : Receipt} {q : Pool}
    {lo hi' : ℕ} (hst : s.pool.Steady q lo hi')
    (hk : Kept { s with pool := q, receipts := s.receipts.set i r' })
    (hhandle : r'.handle = r.handle) (hrel : i < k ∨ r'.releases = r.releases) :
    Stands { s with pool := q, receipts := s.receipts.set i r' } c k where
  kept := hk
  le_length := by
    rw [List.length_set]
    exact h.le_length
  passed_eq := h.passed_eq
  offset_eq := by
    rw [h.offset_eq, place, place, hst.writeOffset_eq]
    by_cases hik : i = k
    · subst hik
      rw [List.getElem?_set_self (List.getElem?_eq_some_iff.mp hi).1, hi]
      simp only [Option.map_some, hhandle]
    · rw [List.getElem?_set_ne hik]
  ahead := by
    intro j hj x hx
    by_cases hij : i = j
    · subst hij
      rw [List.getElem?_set_self (List.getElem?_eq_some_iff.mp hi).1] at hx
      obtain rfl := Option.some.inj hx
      rw [hrel.resolve_left (by omega)]
      exact h.ahead i hj r hi
    · rw [List.getElem?_set_ne hij] at hx
      exact h.ahead j hj x hx

end Stands

/-- The cursor has passed the first `k` records of the session, and none of the others was
released. -/
structure Follows (s : Session) (c : Cursor) (k : ℕ) : Prop where
  kept : s.Kept
  measured : s.Measured
  le_length : k ≤ s.receipts.length
  passed_eq : c.passed = .ofNat k
  offset_eq : c.offset = s.place k
  ahead : ∀ i, k ≤ i → ∀ r ∈ s.receipts[i]?, r.releases = 0

theorem Stands.follows {c : Cursor} (h : s.Stands c k) (hm : s.Measured) : s.Follows c k :=
  ⟨h.kept, hm, h.le_length, h.passed_eq, h.offset_eq, h.ahead⟩

namespace Follows

variable {c : Cursor}

theorem stands (h : s.Follows c k) : s.Stands c k :=
  ⟨h.kept, h.le_length, h.passed_eq, h.offset_eq, h.ahead⟩

theorem fresh {p : Pool} {priority : Priority} (hp : p.Fresh priority) :
    (Session.mk p none []).Follows .start 0 := by
  have h := Stands.endCursor hp.kept
  rw [endCursor_fresh hp] at h
  exact h.follows (by simp [Measured])

theorem atCursor_eq (h : s.Follows c k) : s.pool.atCursor c = s.receipts[k]?.map (·.handle) :=
  h.stands.atCursor_eq

theorem pending_eq (h : s.Follows c k) : s.pool.pending c = s.receipts.length - k :=
  h.stands.pending_eq

theorem advance (h : s.Follows c k) (hk : s.receipts[k]? = some r) :
    ∃ c', s.pool.advance c = .ok c' ∧ s.Follows c' (k + 1) := by
  obtain ⟨c', hc, hs⟩ := h.stands.advance hk
  exact ⟨c', hc, hs.follows h.measured⟩

theorem produce (h : s.Follows c k) {o : Request} (ho : s.Allows o) (hp : o.Produces)
    (hn : ¬ o.Oversized) : ∃ t, s.step o = .ok t ∧ t.Follows c k ∧
      t.pool.priority = s.pool.priority ∧ ∃ new, t.receipts = s.receipts ++ new := by
  obtain ⟨t, ht, hs, hrest⟩ := h.stands.produce ho hp hn
  have hkeep : s.KeepsLength o := by cases o <;> trivial
  exact ⟨t, ht, hs.follows (step_measured ht h.measured hkeep), hrest⟩

theorem change (h : s.Follows c k) (hi : s.receipts[i]? = some r) (hik : i < k) {r' : Receipt}
    {q : Pool} {lo hi' : ℕ} (hst : s.pool.Steady q lo hi')
    (hk : Kept { s with pool := q, receipts := s.receipts.set i r' })
    (hhandle : r'.handle = r.handle) (hpay : r'.payload = r.payload)
    (hlen : r'.header.length = r.header.length) :
    Follows { s with pool := q, receipts := s.receipts.set i r' } c k := by
  refine (h.stands.change hi hst hk hhandle (.inl hik)).follows fun x hx => ?_
  rcases List.mem_or_eq_of_mem_set hx with hx | rfl
  · exact h.measured x hx
  · rw [hlen, hpay]
    exact h.measured r (List.mem_of_getElem? hi)

end Follows

end Session

end EtherBuffer
