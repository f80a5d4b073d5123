import EtherBuffer.Proofs.Pool.Session

/-! What is read of a record: the bytes that were written to its reservation, and the header that was
set last. -/
namespace EtherBuffer.Session
open Record

/-- The request leaves the length in a header alone. -/
def KeepsLength (s : Session) : Request → Prop
  | .setHeader i header => ∀ r ∈ s.receipts[i]?, header.length = r.header.length
  | .updateHeader i f => ∀ r ∈ s.receipts[i]?, (f r.header).length = r.header.length
  | _ => True

def AllowsReading (s : Session) (o : Request) : Prop :=
  s.Allows o ∧ s.KeepsLength o

instance (s : Session) : (o : Request) → Decidable (s.KeepsLength o)
  | .setHeader i header =>
    inferInstanceAs (Decidable (∀ r ∈ s.receipts[i]?, header.length = r.header.length))
  | .updateHeader i f =>
    inferInstanceAs (Decidable (∀ r ∈ s.receipts[i]?, (f r.header).length = r.header.length))
  | .reserve | .reserveAtLeast _ | .write _ | .commit _ | .takeShare _ | .free _ =>
    inferInstanceAs (Decidable True)

instance (s : Session) (o : Request) : Decidable (s.AllowsReading o) :=
  inferInstanceAs (Decidable (_ ∧ _))

def Measured (s : Session) : Prop :=
  ∀ r ∈ s.receipts, r.header.length = .ofNat r.payload.length

theorem onRecord_measured {s t : Session} {i : ℕ} {run : Receipt → Except Fault Pool}
    {note : Receipt → Receipt} (hs : s.onRecord i run note = .ok t) (h : s.Measured)
    (hp : ∀ r, (note r).payload = r.payload)
    (hl : ∀ r ∈ s.receipts[i]?, (note r).header.length = r.header.length) : t.Measured := by
  unfold onRecord at hs
  cases hi : s.receipts[i]? with
  | none =>
    rw [hi] at hs
    obtain rfl := Except.ok.inj hs
    exact h
  | some r =>
    rw [hi] at hs
    obtain ⟨q, -, hq⟩ := bind_eq_ok_iff.mp hs
    obtain rfl := Except.ok.inj hq
    intro r' hr'
    rcases List.mem_or_eq_of_mem_set hr' with hr' | rfl
    · exact h r' hr'
    · rw [hl r hi, hp, h r (List.mem_of_getElem? hi)]

theorem taken_length (r : Receipt) : r.taken.header.length = r.header.length := by
  unfold Receipt.taken
  split_ifs <;> rfl

theorem taken_payload (r : Receipt) : r.taken.payload = r.payload := by
  unfold Receipt.taken
  split_ifs <;> rfl

theorem step_measured {s t : Session} {o : Request} (hs : s.step o = .ok t) (h : s.Measured)
    (ho : s.KeepsLength o) : t.Measured := by
  cases o with
  | reserve =>
    obtain rfl := Except.ok.inj hs
    exact h
  | reserveAtLeast n =>
    obtain ⟨res, -, hres⟩ := bind_eq_ok_iff.mp hs
    cases res <;> obtain rfl := Except.ok.inj hres <;> exact h
  | write bytes =>
    simp only [step] at hs
    cases hd : s.draft with
    | none =>
      rw [hd] at hs
      obtain rfl := Except.ok.inj hs
      exact h
    | some d =>
      rw [hd] at hs
      obtain ⟨⟨q, res, fits⟩, -, hq⟩ := bind_eq_ok_iff.mp hs
      obtain rfl := Except.ok.inj hq
      exact h
  | commit header =>
    simp only [step] at hs
    cases hd : s.draft with
    | none =>
      rw [hd] at hs
      obtain rfl := Except.ok.inj hs
      exact h
    | some d =>
      rw [hd] at hs
      obtain ⟨⟨q, handle⟩, -, hq⟩ := bind_eq_ok_iff.mp hs
      obtain rfl := Except.ok.inj hq
      intro r hr
      rcases List.mem_append.mp hr with hr | hr
      · exact h r hr
      · obtain ⟨k, -, rfl⟩ : ∃ k, handle = some k ∧ issue k d.bytes header = r := by
          simpa [Option.map_eq_some_iff] using hr
        rfl
  | setHeader i header => exact onRecord_measured hs h (fun _ => rfl) ho
  | updateHeader i f => exact onRecord_measured hs h (fun _ => rfl) ho
  | takeShare i => exact onRecord_measured hs h taken_payload fun r _ => taken_length r
  | free i => exact onRecord_measured hs h (fun _ => rfl) fun _ _ => rfl

theorem Reached.measured {start s : Session} (h : Reached AllowsReading start s)
    (h₀ : start.Measured) : s.Measured := by
  induction h with
  | start => exact h₀
  | step o _ ho hs ih => exact step_measured hs ih ho.2

theorem Sound.length_toNat {s : Session} {base : ℕ} {gone held : List Receipt}
    (h : s.Sound base gone held) (hm : s.Measured) {i : ℕ} {r : Receipt}
    (hi : s.receipts[i]? = some r) (hr : r.releases = 0) :
    r.header.length.toNat = r.payload.length := by
  obtain ⟨as, bs, hheld, -⟩ := h.split hi (by simp [Receipt.isReleased, hr])
  have hh := h.holds
  rw [hheld] at hh
  rw [hm r (List.mem_of_getElem? hi), UInt32.toNat_ofNat', Nat.mod_eq_of_lt hh.payload_lt]

theorem Sound.readPayload_eq {s : Session} {base : ℕ} {gone held : List Receipt}
    (h : s.Sound base gone held) (hm : s.Measured) {i : ℕ} {r : Receipt}
    (hi : s.receipts[i]? = some r) (hr : r.releases = 0) (first n : ℕ) :
    s.pool.readPayload r.handle first n = .ok ((r.payload.drop first).take n) := by
  obtain ⟨as, bs, hheld, -⟩ := h.split hi (by simp [Receipt.isReleased, hr])
  have hh := h.holds
  rw [hheld] at hh
  exact hh.readPayload_eq (h.length_toNat hm hi hr) first n

/-- A record that was not released has the header of its receipt, and any part of its payload is read as
it was written. -/
theorem reached_reads_back (arena : Array UInt8) (priority : Priority) (p : Pool)
    (hp : Pool.create arena priority = .ok p) (hmax : arena.size < 2 ^ 32) (s : Session)
    (hs : Reached AllowsReading ⟨p, none, []⟩ s) (i : ℕ) (r : Receipt)
    (hi : s.receipts[i]? = some r) (hr : r.releases = 0) :
    s.pool.header r.handle = .ok r.header ∧
      ∀ first n, ∃ bytes, s.pool.readPayload r.handle first n = .ok bytes ∧
        bytes.length = min n (r.payload.length - first) ∧
        bytes = (r.payload.drop first).take n := by
  obtain ⟨base, gone, held, hk⟩ : s.Kept :=
    hs.kept (fun _ _ h => h.1) ⟨_, _, _, Sound.create hp hmax⟩
  have hm : s.Measured := hs.measured (by simp [Measured])
  exact ⟨hk.header_eq hi hr, fun first n => ⟨_, hk.readPayload_eq hm hi hr first n, by simp, rfl⟩⟩

/-- A payload in two pieces, which goes on at the start of the ring. -/
theorem reached_reads_back_wrapped :
    ∃ p s r, Pool.create (Array.replicate 200 0) .low = .ok p ∧
      Reached AllowsReading ⟨p, none, []⟩ s ∧ s.receipts[1]? = some r ∧ r.releases = 0 ∧
      s.pool.header r.handle = .ok { length := 80, sharers := 2 } ∧
      s.pool.readPayload r.handle 45 30 = .ok (.replicate 5 7 ++ .replicate 25 9) := by
  have hroom : minUsage ≤ wholeWords (Array.replicate 200 (0 : UInt8)).size := by decide +kernel
  obtain ⟨p, hp⟩ : ∃ p, Pool.create (Array.replicate 200 0) .low = .ok p := ⟨_, dif_pos hroom⟩
  let requests : List Request := [.reserve, .write (.replicate 60 5), .commit {}, .free 0, .reserve,
    .write (.replicate 50 7), .write (.replicate 30 9), .commit { sharers := 3 }, .reserve,
    .takeShare 1]
  have hserve : ((Pool.create (Array.replicate 200 0) .low).toOption.bind fun p =>
      (((Session.mk p none []).serve AllowsReading requests).bind fun s => s.receipts[1]?).map
        fun r => (r.payload, r.header, r.releases)) =
      some (.replicate 50 7 ++ .replicate 30 9, { length := 80, sharers := 2 }, 0) := by
    decide +kernel
  rw [hp] at hserve
  obtain ⟨r, hr, he⟩ := Option.map_eq_some_iff.mp hserve
  obtain ⟨s, hs, hi⟩ := Option.bind_eq_some_iff.mp hr
  simp only [Prod.mk.injEq] at he
  obtain ⟨hpay, hhead, hrel⟩ := he
  have hreach := reached_of_serve hs
  obtain ⟨h₁, h₂⟩ := reached_reads_back (Array.replicate 200 0) .low p hp (by decide +kernel) s hreach
    1 r hi hrel
  obtain ⟨bytes, hbytes, -, hpart⟩ := h₂ 45 30
  refine ⟨p, s, r, hp, hreach, hi, hrel, by rw [h₁, hhead], ?_⟩
  rw [hbytes, hpart, hpay]
  rfl

end EtherBuffer.Session
