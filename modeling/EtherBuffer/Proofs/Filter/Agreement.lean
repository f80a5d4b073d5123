import EtherBuffer.Proofs.Filter.Collision

/-! The two tables of a filter are the same between requests, slot by slot. -/
namespace EtherBuffer.Filter

def Answer.NoChange : Answer → Prop
  | .refused _ | .granted false | .deleted false | .cleared 0 => True
  | _ => False

namespace Table
variable {n : ℕ} {client : ℕ} {high : Bool}

theorem foldl_clearStep_of_none {l : List (Fin n)} {s : Table n × ℕ}
    (h : ∀ i ∈ l, s.1.reduceSlot i client high = none) :
    l.foldl (clearStep client high) s = s := by
  induction l with
  | nil => rfl
  | cons i l ih =>
    have hi : clearStep client high s i = s := by
      unfold clearStep
      rw [h i List.mem_cons_self]
    rw [List.foldl_cons, hi]
    exact ih fun j hj => h j (List.mem_cons_of_mem i hj)

/-- A removal that counts no entry has touched none. -/
theorem clearClient_eq_self {t : Table n} (hz : (t.clearClient client high).2 = 0) :
    (t.clearClient client high).1 = t := by
  have hs : Swept client high (List.finRange n) (t, 0) (t.clearClient client high) :=
    foldl_clearStep_swept (List.nodup_finRange n) (t, 0)
  have hc := hs.count_eq
  rw [hz, zero_add, eq_comm, List.countP_eq_zero] at hc
  have hnone : ∀ i ∈ List.finRange n, t.reduceSlot i client high = none := by
    intro i hi
    apply reduceSlot_of_not
    intro e he hm
    apply hc i hi
    change (t.slots.get i).any _ = true
    rw [he, Option.any_some]
    exact decide_eq_true hm
  exact congrArg Prod.fst (foldl_clearStep_of_none (s := (t, 0)) hnone)

end Table

namespace AddressFilter
variable {n : ℕ} {f : AddressFilter n} {t : Table n}

theorem Mirrors.left_eq_right (h : f.Mirrors t) : f.left = f.right :=
  h.left_eq.trans h.right_eq.symm

theorem Mirrors.setBackup_eq (h : f.Mirrors t) : f.setBackup t = f := by
  obtain ⟨left, right, rightActive, threads, claimed, writerClaimed⟩ := f
  obtain rfl : left = t := h.left_eq
  obtain rfl : right = left := h.right_eq
  unfold AddressFilter.setBackup
  split_ifs <;> rfl

theorem clearClient_eq_self {client : ℕ} {high : Bool} (hz : (f.clearClient client high).2 = 0) :
    (f.clearClient client high).1 = f := by
  unfold clearClient at hz ⊢
  split_ifs at hz ⊢ with hc
  · rfl
  · rcases hr : f.backup.clearClient client high with ⟨u, _ | count⟩
    · rfl
    · rw [hr] at hz
      exact absurd hz (Nat.succ_ne_zero count)

variable [Positive n] {m : Registry}

theorem Mirrors.add_publish (h : f.Mirrors t) {e : Entry} {u : Table n}
    (ha : f.backup.add f.active e = (u, .ok false)) :
    (f.publish u).backup.add (f.publish u).active e = (u, .ok false) := by
  rw [h.backup_eq] at ha
  rw [backup_publish, h.active_eq]
  exact Table.add_source ha

/-- An addition that fails has copied the active table over whatever it had moved. -/
theorem Mirrors.add_eq_self (h : f.Mirrors t) (hv : t.Valid) (client : ℕ) (high : Bool)
    (r : Request) {e : FilterError} (ha : (f.add client high r).2 = .error e) :
    (f.add client high r).1 = f := by
  by_cases hc : client < Recipients.capacity
  · rw [h.add_eq hc] at ha ⊢
    obtain ⟨-, hadd⟩ | ⟨-, -, hadd⟩ | ⟨u, refilled, hadd, -⟩ :=
      hv.add_spec (entryOf_nonempty hc high r)
    · rw [hadd]
      exact h.setBackup_eq
    · rw [hadd]
      exact h.setBackup_eq
    · rw [hadd] at ha
      cases ha
  · unfold add Recipients.single
    rw [if_neg hc]

theorem step_add_error {client : ℕ} {high : Bool} {r : Request} {e : FilterError}
    (ha : (f.add client high r).2 = .error e) :
    (f.step (.add client high r)).2 = .refused (.filter e) := by
  rcases hr : f.add client high r with ⟨g, answer⟩
  rw [hr] at ha
  obtain rfl : answer = .error e := ha
  simp only [step, hr]

theorem Mirrors.step_eq_self (h : f.Mirrors t) (hv : t.Valid) {a : Action}
    (ha : (f.step a).2.NoChange) : (f.step a).1 = f := by
  cases a with
  | configure threads =>
    cases hr : f.configure threads with
    | ok g => simp [step, hr, Answer.NoChange] at ha
    | error e => simp only [step, hr]
  | claimReader slot =>
    cases hr : f.claimReader slot with
    | some g => simp [step, hr, Answer.NoChange] at ha
    | none => simp only [step, hr]
  | claimWriter =>
    cases hr : f.claimWriter with
    | some g => simp [step, hr, Answer.NoChange] at ha
    | none => simp only [step, hr]
  | releaseReader slot => exact absurd ha id
  | releaseWriter => exact absurd ha id
  | read slot k => rfl
  | lookup k => rfl
  | add client high r =>
    rcases hr : f.add client high r with ⟨g, e | ⟨⟩⟩
    · have hself := h.add_eq_self hv client high r (e := e) (by rw [hr])
      rw [hr] at hself
      simp only [step, hr]
      exact hself
    · simp [step, hr, Answer.NoChange] at ha
  | delete client high r =>
    cases hr : f.delete client high r with
    | some g => simp [step, hr, Answer.NoChange] at ha
    | none => simp only [step, hr]
  | clearClient client high =>
    apply clearClient_eq_self
    change (Answer.cleared (f.clearClient client high).2).NoChange at ha
    cases hc : (f.clearClient client high).2 with
    | zero => rfl
    | succ count => simp [hc, Answer.NoChange] at ha
  | clear => exact absurd ha id

/-- Between requests both tables are the same. A request that says that it changed nothing leaves the
filter as it was. -/
theorem Used.tables_agree (h : Used f m) :
    f.left = f.right ∧
      (∀ e u, f.backup.add f.active e = (u, .ok false) →
        (f.publish u).backup.add (f.publish u).active e = (u, .ok false)) ∧
      (∀ client high, (f.backup.clearClient client high).2 = 0 →
        (f.backup.clearClient client high).1 = f.backup) ∧
      ∀ a, (f.step a).2.NoChange → (f.step a).1 = f := by
  obtain ⟨t, hm, hv, -⟩ := h.mirrors
  exact ⟨hm.left_eq_right, fun e u ha => hm.add_publish ha,
    fun client high hz => Table.clearClient_eq_self hz, fun a ha => hm.step_eq_self hv ha⟩

/-- An addition is refused after sixty-four attempts to fill the table anew. -/
theorem Used.tables_agree_refilled :
    let r (a : UInt8) : Request := { address := ⟨#v[a, 0, 0, 0, a, 0]⟩ }
    let f := (((empty 16).step .claimWriter).1.step (.add 0 false (r 2))).1
    f.left = f.right ∧ f.size = 1 ∧
      (f.step (.add 1 false (r 6))).2 = .refused (.filter .tableFull) ∧
      (f.step (.add 1 false (r 6))).1 = f := by
  intro r f
  have h₁ := (Used.start (n := 16).step .claimWriter trivial).step (.add 0 false (r 2)) rfl
  have ha : (((empty 16).step .claimWriter).1.step (.add 0 false (r 2))).2 = .done := by
    decide +kernel
  rw [ha] at h₁
  let m := Registry.empty.register (r 2).key 0 false 0
  have h : f.Used m := h₁
  have hm : m.fellows (r 6).key.fold = {(r 2).key} := by
    ext k
    simp only [m, Registry.fellows, Registry.register, Registry.empty, Function.update_apply,
      Set.mem_ofPred_eq, Set.mem_singleton_iff]
    by_cases hk : k = (r 2).key
    · subst hk
      simp only [if_true, Option.isSome_some, true_and, iff_true]
      decide
    · simp [hk]
  have hfull : (f.add 1 false (r 6)).2 = .error .tableFull := by
    apply h.add_crowded (by decide) false (by decide) (by decide)
    rw [hm, Set.ncard_singleton]
    decide
  have hstep := step_add_error hfull
  obtain ⟨heq, -, -, hself⟩ := h.tables_agree
  refine ⟨heq, by decide +kernel, hstep, hself (.add 1 false (r 6)) ?_⟩
  rw [hstep]
  exact True.intro

end AddressFilter

end EtherBuffer.Filter
