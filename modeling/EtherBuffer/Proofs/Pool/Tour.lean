import EtherBuffer.Proofs.Pool.Cursor
import EtherBuffer.Proofs.Run

/-! The tour of a cursor, which meets all records since it was made in the order of their commits, each
once. -/
namespace EtherBuffer
open Record

/-- A request that releases no record from the number `k` on. -/
def Request.Spares (k : ℕ) : Request → Prop
  | .free i => i < k
  | .reserve | .reserveAtLeast _ | .write _ | .commit _ | .setHeader _ _ | .updateHeader _ _
  | .takeShare _ => True

instance (k : ℕ) : (o : Request) → Decidable (o.Spares k)
  | .free i => inferInstanceAs (Decidable (i < k))
  | .reserve | .reserveAtLeast _ | .write _ | .commit _ | .setHeader _ _ | .updateHeader _ _
  | .takeShare _ => inferInstanceAs (Decidable True)

/-- A session with a cursor, and the handles that the cursor met. -/
structure Tour where
  session : Session
  cursor : Cursor
  first : ℕ
  met : List Handle := []

namespace Tour

def begin (s : Session) : Tour where
  session := s
  cursor := s.pool.endCursor
  first := s.receipts.length

def passed (x : Tour) : ℕ :=
  x.first + x.met.length

/-- The receipts of the records that are still to be met. -/
def ahead (x : Tour) : List Receipt :=
  x.session.receipts.drop x.passed

inductive Action where
  | request (o : Request)
  | advance

def step (x : Tour) : Action → Except Fault Tour
  | .request o => do return { x with session := ← x.session.step o }
  | .advance => do
    let next := x.session.pool.atCursor x.cursor
    let cursor ← x.session.pool.advance x.cursor
    return { x with cursor, met := x.met ++ next.toList }

/-- No record is released before the cursor has passed it. -/
def Allows (x : Tour) : Action → Prop
  | .request o => x.session.Allows o ∧ o.Spares x.passed
  | .advance => True

instance (x : Tour) : (a : Action) → Decidable (x.Allows a)
  | .request _ => inferInstanceAs (Decidable (_ ∧ _))
  | .advance => inferInstanceAs (Decidable True)

def Reached (start : Tour) : Tour → Prop :=
  Run Allows step start

variable {s : Session} {x y : Tour}

/-- What the cursor met is what was committed since it was made. -/
structure OnCourse (x : Tour) : Prop where
  stands : x.session.Stands x.cursor x.passed
  course : (x.session.receipts.drop x.first).map (·.handle) = x.met ++ x.ahead.map (·.handle)

namespace OnCourse

theorem begin (hk : s.Kept) : (Tour.begin s).OnCourse where
  stands := .endCursor hk
  course := rfl

theorem of_session (h : x.OnCourse) {t : Session} (ht : t.Stands x.cursor x.passed)
    (hrec : ∃ new, t.receipts.map (·.handle) = x.session.receipts.map (·.handle) ++ new) :
    OnCourse { x with session := t } where
  stands := ht
  course := by
    obtain ⟨new, hnew⟩ := hrec
    have hle : x.passed ≤ (x.session.receipts.map (·.handle)).length := by
      rw [List.length_map]
      exact h.stands.le_length
    have hfirst : x.first ≤ x.passed := Nat.le_add_right _ _
    have hcourse := h.course
    change (t.receipts.drop x.first).map _ = x.met ++ (t.receipts.drop x.passed).map _
    rw [ahead, List.map_drop, List.map_drop] at hcourse
    rw [List.map_drop, List.map_drop, hnew, List.drop_append_of_le_length hle,
      List.drop_append_of_le_length (hfirst.trans hle), hcourse, List.append_assoc]

theorem request (h : x.OnCourse) {o : Request} (ha : x.Allows (.request o)) (hn : ¬ o.Oversized) :
    ∃ t, x.session.step o = .ok t ∧ OnCourse { x with session := t } := by
  obtain ⟨ho, hspare⟩ := ha
  by_cases hp : o.Produces
  · obtain ⟨t, ht, hstands, -, new, hnew⟩ := h.stands.produce ho hp hn
    exact ⟨t, ht, h.of_session hstands ⟨_, by rw [hnew, List.map_append]⟩⟩
  · obtain ⟨t, ht, hk⟩ := h.stands.kept.step ho hn
    obtain ⟨i, r, r', q, hi, hhandle, -, hrel, ⟨lo, hi', hst⟩, rfl⟩ :=
      Session.step_changes ht h.stands.kept ho hp
    have hpassed : i < x.passed ∨ r'.releases = r.releases := by
      rcases hrel with hrel | rfl
      · exact .inr hrel
      · exact .inl hspare
    obtain ⟨hlt, rfl⟩ := List.getElem?_eq_some_iff.mp hi
    refine ⟨_, ht, h.of_session (h.stands.change hi hst hk hhandle hpassed) ⟨[], ?_⟩⟩
    rw [List.append_nil, List.map_set, hhandle, ← List.map_set, List.set_getElem_self]

theorem next_eq (h : x.OnCourse) :
    x.session.pool.atCursor x.cursor = x.ahead.head?.map (·.handle) := by
  rw [h.stands.atCursor_eq, ahead, List.head?_drop]

theorem advance_end (h : x.OnCourse) (hend : x.ahead = []) : x.step .advance = .ok x := by
  have hnext := h.next_eq
  have hpassed := List.drop_eq_nil_iff.mp hend
  have hstay := h.stands.advance_end (le_antisymm h.stands.le_length hpassed)
  rw [hend] at hnext
  simp only [step, hnext, hstay, ok_bind]
  exact congrArg Except.ok (congrArg (Tour.mk _ _ _) (List.append_nil x.met))

theorem advance_cons (h : x.OnCourse) {r : Receipt} {rs : List Receipt} (hr : x.ahead = r :: rs) :
    ∃ c, x.step .advance = .ok { x with cursor := c, met := x.met ++ [r.handle] } ∧
      OnCourse { x with cursor := c, met := x.met ++ [r.handle] } ∧
      ahead { x with cursor := c, met := x.met ++ [r.handle] } = rs := by
  have hnext := h.next_eq
  have hget : x.session.receipts[x.passed]? = some r := by
    rw [← List.head?_drop, ← ahead, hr]
    rfl
  have hrs : x.session.receipts.drop (x.passed + 1) = rs := by
    rw [← List.tail_drop, ← ahead, hr]
    rfl
  obtain ⟨c, hc, hstands⟩ := h.stands.advance hget
  rw [hr] at hnext
  have hcourse := h.course
  have hpassed : passed { x with cursor := c, met := x.met ++ [r.handle] } = x.passed + 1 := by
    rw [passed, List.length_append]
    rfl
  have hahead : ahead { x with cursor := c, met := x.met ++ [r.handle] } = rs := by
    rw [ahead, hpassed]
    exact hrs
  refine ⟨c, ?_, ⟨?_, ?_⟩, hahead⟩
  · simp only [step, hnext, hc, ok_bind]
    rfl
  · rw [hpassed]
    exact hstands
  · rw [hahead]
    rw [hr] at hcourse
    rw [hcourse, List.map_cons, List.append_assoc]
    rfl

end OnCourse

structure Complete (x : Tour) : Prop where
  course : (x.session.receipts.drop x.first).map (·.handle) = x.met ++ x.ahead.map (·.handle)
  next_eq : x.session.pool.atCursor x.cursor = x.ahead.head?.map (·.handle)
  next_eq_none : x.session.pool.atCursor x.cursor = none ↔ x.passed = x.session.receipts.length
  /-- Not a later record in the same place. -/
  readable : ∀ r ∈ x.ahead, r.releases = 0 ∧ x.session.pool.header r.handle = .ok r.header
  advance_end : x.ahead = [] → x.step .advance = .ok x
  advance_cons : ∀ r rs, x.ahead = r :: rs → ∃ y, x.step .advance = .ok y ∧
    y.session = x.session ∧ y.met = x.met ++ [r.handle] ∧ y.ahead = rs

theorem OnCourse.complete (h : x.OnCourse) : x.Complete where
  course := h.course
  next_eq := h.next_eq
  next_eq_none := by
    have hle := h.stands.le_length
    rw [h.next_eq, Option.map_eq_none_iff, List.head?_eq_none_iff, ahead, List.drop_eq_nil_iff]
    omega
  readable := by
    intro r hr
    obtain ⟨i, hi⟩ := List.mem_iff_getElem?.mp hr
    rw [ahead, List.getElem?_drop] at hi
    have hlive := h.stands.ahead _ (Nat.le_add_right x.passed i) r hi
    obtain ⟨base, gone, held, hs⟩ := h.stands.kept
    exact ⟨hlive, hs.header_eq hi hlive⟩
  advance_end := h.advance_end
  advance_cons r rs hr := by
    obtain ⟨c, hc, -, hahead⟩ := h.advance_cons hr
    exact ⟨_, hc, rfl, rfl, hahead⟩

/-- An action that the rules allow keeps the tour on its course. -/
theorem OnCourse.step (h : x.OnCourse) {a : Action} (ha : x.Allows a) (hs : x.step a = .ok y) :
    y.OnCourse ∧ y.first = x.first := by
  cases a with
  | request o =>
    obtain ⟨t, ht, hy⟩ := bind_eq_ok_iff.mp hs
    obtain ⟨t', ht', hcourse⟩ := h.request ha (Session.not_oversized ht)
    rw [ht] at ht'
    obtain rfl := Except.ok.inj ht'
    obtain rfl := Except.ok.inj hy
    exact ⟨hcourse, rfl⟩
  | advance =>
    cases hr : x.ahead with
    | nil =>
      rw [h.advance_end hr] at hs
      obtain rfl := Except.ok.inj hs
      exact ⟨h, rfl⟩
    | cons r rs =>
      obtain ⟨c, hc, hy, -⟩ := h.advance_cons hr
      rw [hc] at hs
      obtain rfl := Except.ok.inj hs
      exact ⟨hy, rfl⟩

theorem Reached.onCourse (hx : Reached (begin s) x) (hk : s.Kept) :
    x.OnCourse ∧ x.first = s.receipts.length := by
  refine Run.invariant (P := fun y => y.OnCourse ∧ y.first = s.receipts.length) hx
    ⟨.begin hk, rfl⟩ fun u a v hu ha hs => ?_
  obtain ⟨hv, hfirst⟩ := hu.1.step ha hs
  exact ⟨hv, hfirst.trans hu.2⟩

/-- A cursor meets the records that are committed after it was made in their order and each once,
whatever else is done. -/
theorem reached_complete (p : Pool) (priority : Priority) (hp : p.Fresh priority) (s : Session)
    (hs : Session.Reached Session.Allows ⟨p, none, []⟩ s) (x : Tour) (hx : Reached (begin s) x) :
    p.endCursor = .start ∧ x.first = s.receipts.length ∧ x.Complete ∧
      ∀ o, x.Allows (.request o) → ¬ o.Oversized → ∃ y, x.step (.request o) = .ok y := by
  have hk : s.Kept := hs.kept (fun _ _ h => h) hp.kept
  obtain ⟨h, hfirst⟩ := hx.onCourse hk
  refine ⟨Session.endCursor_fresh hp, hfirst, h.complete, fun o ha hn => ?_⟩
  obtain ⟨t, ht, -⟩ := h.request ha hn
  exact ⟨_, by simp only [step, ht, ok_bind]; rfl⟩

/-- The fourth record goes where the second one was, and the cursor meets it under the same handle. -/
theorem reached_complete_reused :
    ∃ p s x, Pool.Fresh p .low ∧ Session.Reached Session.Allows ⟨p, none, []⟩ s ∧
      Reached (begin s) x ∧ x.first = 1 ∧ x.met = [.at .low 104, .at .low 0] ∧
      x.session.pool.atCursor x.cursor = some (.at .low 104) := by
  have hroom : minUsage ≤ wholeWords (Array.replicate 200 (0 : UInt8)).size := by decide +kernel
  obtain ⟨p, hp⟩ : ∃ p, Pool.create (Array.replicate 200 0) .low = .ok p := ⟨_, dif_pos hroom⟩
  have hfresh : p.Fresh .low := ⟨_, by decide +kernel, hp⟩
  let record (n : ℕ) : List Request := [.reserve, .write (.replicate n 7), .commit {}]
  let requests (os : List Request) : List Action := os.map .request
  let actions : List Action := requests (record 20) ++ requests [.free 0] ++ requests (record 60) ++
    [.advance] ++ requests [.free 1, .setHeader 2 {}] ++ requests (record 60) ++
    requests (record 20) ++ [.advance]
  have hrun : ((Pool.create (Array.replicate 200 0) .low).toOption.bind fun p =>
      ((Session.mk p none []).serve Session.Allows (record 60)).bind fun s =>
        (perform Allows step (begin s) actions).map fun x =>
          (x.met, x.ahead.map (·.handle), s.receipts.length)) =
      some ([.at .low 104, .at .low 0], [.at .low 104], 1) := by
    decide +kernel
  rw [hp, Except.toOption, Option.bind_some] at hrun
  obtain ⟨s, hs, hrun⟩ := Option.bind_eq_some_iff.mp hrun
  obtain ⟨x, hx, he⟩ := Option.map_eq_some_iff.mp hrun
  simp only [Prod.mk.injEq] at he
  obtain ⟨hmet, hahead, hlength⟩ := he
  have hsr := Session.reached_of_serve hs
  have hxr := Run.of_perform hx
  obtain ⟨-, hfirst, hcomplete, -⟩ := reached_complete p .low hfresh s hsr x hxr
  refine ⟨p, s, x, hfresh, hsr, hxr, hfirst.trans hlength, hmet, ?_⟩
  rw [hcomplete.next_eq, ← List.head?_map, hahead]
  rfl

end Tour

end EtherBuffer
