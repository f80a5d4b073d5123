import EtherBuffer.Filter.AddressFilter
import EtherBuffer.Proofs.Filter.Registry

/-! An address filter in use answers as a map from keys to registrations does. -/
namespace EtherBuffer.Filter

inductive Action where
  | configure (threads : ℕ)
  | claimReader (slot : ℕ)
  | releaseReader (slot : ℕ)
  | claimWriter
  | releaseWriter
  | read (slot : ℕ) (k : Key)
  | lookup (k : Key)
  | add (client : ℕ) (high : Bool) (r : Request)
  | delete (client : ℕ) (high : Bool) (r : Request)
  | clearClient (client : ℕ) (high : Bool)
  | clear

inductive Answer where
  | done
  | refused (e : Error)
  | granted (claimed : Bool)
  | found (hit : Option Hit)
  | deleted (changed : Bool)
  | cleared (count : ℕ)
  deriving DecidableEq

namespace Registry

/-- What a request makes of the registrations, given its answer. -/
def after (m : Registry) : Action → Answer → Registry
  | .add client high r, .done => m.register r.key client high r.appData
  | .delete client high r, _ => m.withdraw r.key client high
  | .clearClient client high, _ => m.withdrawAll client high
  | .clear, _ => empty
  | _, _ => m

/-- An addition may be refused for want of room, unless the key has a registration. -/
def Answers (m : Registry) : Action → Answer → Prop
  | .read _ k, .found hit | .lookup k, .found hit => hit.map Hit.registration = m k
  | .add client _ r, .done => client < Recipients.capacity ∧ r.key ≠ .zero
  | .add client _ _, .refused (.filter .invalidClient) => Recipients.capacity ≤ client
  | .add client _ r, .refused (.filter .zeroAddress) =>
    client < Recipients.capacity ∧ r.key = .zero
  | .add client _ r, .refused (.filter .tableFull) =>
    client < Recipients.capacity ∧ r.key ≠ .zero ∧ m r.key = none
  | .delete client high r, .deleted changed => changed = true ↔ m.Has r.key client high
  | .clearClient client high, .cleared count => count = {k | m.Has k client high}.ncard
  | .clear, .done => True
  | .configure _, _ | .claimReader _, _ | .releaseReader _, _ | .claimWriter, _
  | .releaseWriter, _ => True
  | _, _ => False

end Registry

namespace AddressFilter

/-! ### The two tables -/

section
variable {n : ℕ} {f : AddressFilter n} {t : Table n}

structure Mirrors (f : AddressFilter n) (t : Table n) : Prop where
  left_eq : f.left = t
  right_eq : f.right = t

theorem Mirrors.active_eq (h : f.Mirrors t) : f.active = t := by
  unfold active
  rw [h.left_eq, h.right_eq, ite_self]

theorem Mirrors.backup_eq (h : f.Mirrors t) : f.backup = t := by
  unfold backup
  rw [h.left_eq, h.right_eq, ite_self]

theorem Mirrors.setBackup (h : f.Mirrors t) : (f.setBackup t).Mirrors t := by
  unfold AddressFilter.setBackup
  split_ifs
  · exact ⟨rfl, h.right_eq⟩
  · exact ⟨h.left_eq, rfl⟩

theorem active_publish (t : Table n) : (f.publish t).active = t := by
  unfold publish swap active setBackup
  cases f.rightActive <;> rfl

theorem backup_publish (t : Table n) : (f.publish t).backup = f.active := by
  unfold publish swap active backup setBackup
  cases f.rightActive <;> rfl

theorem mirrors_publish (t : Table n) : ((f.publish t).setBackup t).Mirrors t := by
  unfold publish swap setBackup
  cases f.rightActive <;> exact ⟨rfl, rfl⟩

theorem writerClaimed_setBackup (f : AddressFilter n) (t : Table n) :
    (f.setBackup t).writerClaimed = f.writerClaimed := by
  unfold setBackup
  split_ifs <;> rfl

theorem writerClaimed_publish (f : AddressFilter n) (t : Table n) :
    (f.publish t).writerClaimed = f.writerClaimed :=
  writerClaimed_setBackup f t

end

/-! ### Requests -/

section
variable {n : ℕ} [Positive n] {f : AddressFilter n} {t : Table n} {m : Registry}

def step (f : AddressFilter n) : Action → AddressFilter n × Answer
  | .configure threads =>
    match f.configure threads with
    | .ok g => (g, .done)
    | .error e => (f, .refused (.config e))
  | .claimReader slot =>
    match f.claimReader slot with
    | some g => (g, .granted true)
    | none => (f, .granted false)
  | .releaseReader slot => (f.releaseReader slot, .done)
  | .claimWriter =>
    match f.claimWriter with
    | some g => (g, .granted true)
    | none => (f, .granted false)
  | .releaseWriter => (f.releaseWriter, .done)
  | .read _ k | .lookup k => (f, .found (f.lookup k))
  | .add client high r =>
    match f.add client high r with
    | (g, .ok ()) => (g, .done)
    | (g, .error e) => (g, .refused (.filter e))
  | .delete client high r =>
    match f.delete client high r with
    | some g => (g, .deleted true)
    | none => (f, .deleted false)
  | .clearClient client high =>
    ((f.clearClient client high).1, .cleared (f.clearClient client high).2)
  | .clear => (f.clear, .done)

/-- A reader uses a slot that it has claimed, and updates are made by a writer. -/
def Permits (f : AddressFilter n) : Action → Prop
  | .configure _ | .claimReader _ | .claimWriter => True
  | .releaseReader slot | .read slot _ => f.claimed[slot]? = some true
  | .releaseWriter | .lookup _ | .add .. | .delete .. | .clearClient .. | .clear =>
    f.writerClaimed = true

/-- A filter that was used from the start, with what was registered in it. -/
inductive Used : AddressFilter n → Registry → Prop
  | start : Used (.empty n) .empty
  | step {f : AddressFilter n} {m : Registry} (a : Action) : Used f m → f.Permits a →
      Used (f.step a).1 (m.after a (f.step a).2)

def Follows (t : Table n) (a : Action) (x : AddressFilter n × Answer) : Prop :=
  ∃ t', x.1.Mirrors t' ∧ t'.Valid ∧ t'.registry = t.registry.after a x.2 ∧ t.registry.Answers a x.2

theorem writerClaimed_addAgain (f : AddressFilter n) (e : Entry) :
    (f.addAgain e).writerClaimed = f.writerClaimed := by
  unfold addAgain
  split <;> exact writerClaimed_setBackup f _

/-- A writer keeps its claim until it gives it up. -/
theorem writerClaimed_step (h : f.writerClaimed = true) {a : Action} (ha : a ≠ .releaseWriter) :
    (f.step a).1.writerClaimed = true := by
  have hboth (t u : Table n) : ((f.publish t).setBackup u).writerClaimed = true := by
    rw [writerClaimed_setBackup, writerClaimed_publish, h]
  cases a with
  | configure threads =>
    rw [step, configure]
    split_ifs <;> exact h
  | claimReader slot =>
    rw [step, claimReader]
    split_ifs <;> exact h
  | claimWriter =>
    rw [step, claimWriter, if_pos h]
    exact h
  | releaseWriter => exact absurd rfl ha
  | releaseReader slot => exact h
  | read slot k => exact h
  | lookup k => exact h
  | clear => exact hboth _ _
  | add client high r =>
    rw [step, add]
    cases Recipients.single client with
    | error e => exact h
    | ok recipients =>
      dsimp only
      rcases f.backup.add f.active ⟨r.key, ⟨recipients.withHigh high, r.appData⟩⟩ with
        ⟨t, e | _ | _⟩
      · exact (writerClaimed_setBackup f t).trans h
      · exact (writerClaimed_addAgain _ _).trans ((writerClaimed_publish f t).trans h)
      · exact hboth t _
  | delete client high r =>
    rw [step, delete]
    split_ifs
    · exact h
    · cases f.backup.delete r.key client high with
      | none => exact h
      | some t => exact hboth t _
  | clearClient client high =>
    rw [step, clearClient]
    split_ifs
    · exact h
    · rcases f.backup.clearClient client high with ⟨t, _ | count⟩
      · exact h
      · exact hboth t _

/-- A writer at work may go on. -/
theorem Used.update (h : Used f m ∧ f.writerClaimed = true) (a : Action)
    (hp : f.writerClaimed = true → f.Permits a) (ha : a ≠ .releaseWriter) :
    Used (f.step a).1 (m.after a (f.step a).2) ∧ (f.step a).1.writerClaimed = true :=
  ⟨h.1.step a (hp h.2), writerClaimed_step h.2 ha⟩

theorem Mirrors.lookup_eq (h : f.Mirrors t) (k : Key) : f.lookup k = t.lookup k := by
  unfold lookup
  rw [h.active_eq]

theorem Mirrors.mirrors_added (h : f.Mirrors t) {e : Entry} {t' : Table n} {refilled : Bool}
    (ha : t.add t e = (t', .ok refilled)) :
    (if refilled then (f.publish t').setBackup (f.publish t').active
      else (f.publish t').addAgain e).Mirrors t' := by
  cases refilled with
  | true =>
    change ((f.publish t').setBackup (f.publish t').active).Mirrors t'
    rw [active_publish]
    exact mirrors_publish t'
  | false =>
    change ((f.publish t').addAgain _).Mirrors t'
    unfold addAgain
    rw [active_publish, backup_publish, h.active_eq, Table.add_source ha]
    exact mirrors_publish t'

theorem Mirrors.delete_eq_some (h : f.Mirrors t) {client : ℕ} {high : Bool} {r : Request}
    {t' : Table n} (hc : ¬ Recipients.capacity ≤ client)
    (hd : t.delete r.key client high = some t') :
    f.delete client high r = some ((f.publish t').setBackup t') := by
  rw [delete, if_neg hc, h.backup_eq, hd, Option.map_some]
  dsimp only
  rw [backup_publish, h.active_eq, hd, Option.getD_some]

theorem Mirrors.delete_eq_none (h : f.Mirrors t) {client : ℕ} {high : Bool} {r : Request}
    (hd : t.delete r.key client high = none) : f.delete client high r = none := by
  unfold delete
  split_ifs
  · rfl
  · rw [h.backup_eq, hd]
    rfl

omit [Positive n] in
theorem Mirrors.clearClient_eq (h : f.Mirrors t) {client count : ℕ} {high : Bool}
    {t' : Table n} (hc : ¬ Recipients.capacity ≤ client)
    (ht : t.clearClient client high = (t', count + 1)) :
    f.clearClient client high = ((f.publish t').setBackup t', count + 1) := by
  rw [clearClient, if_neg hc, h.backup_eq, ht]
  change ((f.publish t').setBackup ((f.publish t').backup.clearClient client high).1, count + 1) = _
  rw [backup_publish, h.active_eq, ht]

def entryOf (client : ℕ) (high : Bool) (r : Request) : Entry :=
  ⟨r.key, ⟨.withHigh ⟨Recipients.clientBit client⟩ high, r.appData⟩⟩

theorem entryOf_nonempty {client : ℕ} (hc : client < Recipients.capacity) (high : Bool)
    (r : Request) : (entryOf client high r).hit.recipients.clients.Nonempty := by
  rw [entryOf, Recipients.clients_single hc]
  exact Finset.singleton_nonempty client

/-- The filter goes by what one table does. -/
theorem Mirrors.add_eq (h : f.Mirrors t) {client : ℕ} (hc : client < Recipients.capacity)
    (high : Bool) (r : Request) :
    f.add client high r =
      match t.add t (entryOf client high r) with
      | (u, .error e) => (f.setBackup u, .error e)
      | (u, .ok refilled) =>
        (if refilled then (f.publish u).setBackup (f.publish u).active
          else (f.publish u).addAgain (entryOf client high r), .ok ()) := by
  rw [add, Recipients.single, if_pos hc]
  dsimp only
  rw [h.active_eq, h.backup_eq]
  rfl

theorem Mirrors.add_spec (h : f.Mirrors t) (hv : t.Valid) (client : ℕ) (high : Bool)
    (r : Request) : Follows t (.add client high r) (f.step (.add client high r)) := by
  by_cases hc : client < Recipients.capacity
  swap
  · rw [step, add, Recipients.single, if_neg hc]
    exact ⟨t, h, hv, rfl, Nat.le_of_not_lt hc⟩
  rw [step, h.add_eq hc]
  obtain ⟨hz, ha⟩ | ⟨hz, hl, ha⟩ | ⟨t', refilled, ha, hz, hv', hl⟩ :=
    hv.add_spec (entryOf_nonempty hc high r)
  · rw [ha]
    exact ⟨t, h.setBackup, hv, rfl, hc, hz⟩
  · rw [ha]
    exact ⟨t, h.setBackup, hv, rfl, hc, hz, Option.map_eq_none_iff.mpr hl⟩
  · rw [ha]
    exact ⟨t', h.mirrors_added ha, hv', Table.registry_register hc hl, hc, hz⟩

theorem Mirrors.delete_spec (h : f.Mirrors t) (hv : t.Valid) (client : ℕ) (high : Bool)
    (r : Request) : Follows t (.delete client high r) (f.step (.delete client high r)) := by
  by_cases hm : ∃ hit, t.lookup r.key = some hit ∧ hit.Matches client high
  · obtain ⟨hit, hl, hm⟩ := hm
    have hc : ¬ Recipients.capacity ≤ client := by
      have := (Recipients.mem_clients.mp hm.2).1
      omega
    obtain ⟨t', hd, hv', hl'⟩ := hv.delete_of_matches hl hm
    rw [step, h.delete_eq_some hc hd]
    exact ⟨t', mirrors_publish t', hv', Table.registry_withdraw hl',
      fun _ => Table.registry_has_iff.mpr ⟨hit, hl, hm⟩, fun _ => rfl⟩
  · push Not at hm
    rw [step, h.delete_eq_none (hv.delete_of_not hm)]
    refine ⟨t, h, hv, Table.registry_withdraw fun k => ?_, ?_⟩
    · cases hl : t.lookup k with
      | none => rfl
      | some hit =>
        rw [Option.bind_some]
        split_ifs with hk
        · rw [Hit.drop, if_neg (hm hit (hk ▸ hl))]
        · rfl
    · refine ⟨fun hf => absurd hf Bool.false_ne_true, fun hh => ?_⟩
      obtain ⟨hit, hl, hm'⟩ := Table.registry_has_iff.mp hh
      exact absurd hm' (hm hit hl)

theorem Mirrors.clearClient_spec (h : f.Mirrors t) (hv : t.Valid) (client : ℕ) (high : Bool) :
    Follows t (.clearClient client high) (f.step (.clearClient client high)) := by
  obtain ⟨hv', hl, hc, hz⟩ := hv.clearClient_spec client high
  have hkept (hn : ∀ k hit, t.lookup k = some hit → ¬ hit.Matches client high) :
      Follows t (.clearClient client high) (f, .cleared 0) := by
    refine ⟨t, h, hv, Table.registry_withdrawAll fun k => ?_, ?_⟩
    · cases hk : t.lookup k with
      | none => rfl
      | some hit => rw [Option.bind_some, Hit.drop, if_neg (hn k hit hk)]
    · change 0 = {k | t.registry.Has k client high}.ncard
      have he : {k | t.registry.Has k client high} = ∅ := by
        ext k
        simp only [Set.mem_ofPred_eq, Table.registry_has_iff, Set.mem_empty_iff_false, iff_false]
        rintro ⟨hit, hk, hm⟩
        exact hn k hit hk hm
      rw [he, Set.ncard_empty]
  by_cases hcap : Recipients.capacity ≤ client
  · rw [step, clearClient, if_pos hcap]
    apply hkept
    rintro k hit - hm
    have := (Recipients.mem_clients.mp hm.2).1
    omega
  · rcases hct : t.clearClient client high with ⟨t', _ | count⟩
    · rw [step, clearClient, if_neg hcap, h.backup_eq, hct]
      apply hkept
      rw [hct] at hz
      exact hz rfl
    · rw [hct] at hv' hl hc
      rw [step, h.clearClient_eq hcap hct]
      refine ⟨t', mirrors_publish t', hv', Table.registry_withdrawAll hl, ?_⟩
      change count + 1 = {k | t.registry.Has k client high}.ncard
      simp only [Table.registry_has_iff]
      exact hc

theorem Mirrors.step_spec (h : f.Mirrors t) (hv : t.Valid) (a : Action) :
    Follows t a (f.step a) := by
  cases a with
  | configure threads =>
    rw [step, configure]
    split_ifs <;> exact ⟨t, ⟨h.left_eq, h.right_eq⟩, hv, rfl, trivial⟩
  | claimReader slot =>
    rw [step, claimReader]
    split_ifs <;> exact ⟨t, ⟨h.left_eq, h.right_eq⟩, hv, rfl, trivial⟩
  | releaseReader slot => exact ⟨t, ⟨h.left_eq, h.right_eq⟩, hv, rfl, trivial⟩
  | claimWriter =>
    rw [step, claimWriter]
    split_ifs <;> exact ⟨t, ⟨h.left_eq, h.right_eq⟩, hv, rfl, trivial⟩
  | releaseWriter => exact ⟨t, ⟨h.left_eq, h.right_eq⟩, hv, rfl, trivial⟩
  | read slot k =>
    refine ⟨t, h, hv, rfl, ?_⟩
    change (f.active.lookup k).map _ = _
    rw [h.active_eq]
    rfl
  | lookup k =>
    refine ⟨t, h, hv, rfl, ?_⟩
    change (f.active.lookup k).map _ = _
    rw [h.active_eq]
    rfl
  | add client high r => exact h.add_spec hv client high r
  | delete client high r => exact h.delete_spec hv client high r
  | clearClient client high => exact h.clearClient_spec hv client high
  | clear => exact ⟨.empty n, mirrors_publish _, Table.valid_empty, Table.registry_empty, trivial⟩

theorem Used.mirrors (h : Used f m) : ∃ t, f.Mirrors t ∧ t.Valid ∧ t.registry = m := by
  induction h with
  | start => exact ⟨.empty n, ⟨rfl, rfl⟩, Table.valid_empty, Table.registry_empty⟩
  | step a _ _ ih =>
    obtain ⟨t, hm, hv, rfl⟩ := ih
    obtain ⟨t', hm', hv', hr, -⟩ := hm.step_spec hv a
    exact ⟨t', hm', hv', hr⟩

theorem Used.lookup_eq (h : Used f m) (k : Key) : (f.lookup k).map Hit.registration = m k := by
  obtain ⟨t, hm, -, rfl⟩ := h.mirrors
  rw [hm.lookup_eq]
  rfl

/-- A filter says of each key what is registered for it, counts the keys that have a registration, and
answers requests as the registrations allow. -/
theorem Used.refines_registry (h : Used f m) :
    (∀ k, (f.lookup k).map Hit.registration = m k) ∧ f.size = m.size ∧
      (∀ k r, m k = some r → k ≠ .zero ∧ r.clients.Nonempty) ∧
      ∀ a, f.Permits a → m.Answers a (f.step a).2 := by
  obtain ⟨t, hm, hv, rfl⟩ := h.mirrors
  refine ⟨h.lookup_eq, ?_, fun k r hr => hv.registry_proper hr, fun a _ => ?_⟩
  · unfold size
    rw [hm.active_eq, hv.size_eq_registry]
  · obtain ⟨-, -, -, -, ha⟩ := hm.step_spec hv a
    exact ha

/-- Two clients, of which the second one is in the high class, ask for one address. -/
theorem Used.refines_registry_shared :
    let r : Request := { address := .broadcast, appData := 7 }
    let f := ((((empty 4).step .claimWriter).1.step (.add 0 false r)).1.step (.add 5 true r)).1
    (f.lookup r.key).map Hit.registration = some ⟨{0, 5}, true, 7⟩ ∧ f.size = 1 := by
  intro r f
  have h₀ := Used.start (n := 4).step .claimWriter trivial
  have h₁ := Used.update ⟨h₀, rfl⟩ (.add 0 false r) id nofun
  obtain ⟨h₂, -⟩ := Used.update h₁ (.add 5 true r) id nofun
  have ha : (((empty 4).step .claimWriter).1.step (.add 0 false r)).2 = .done := by
    decide +kernel
  have hb : ((((empty 4).step .claimWriter).1.step (.add 0 false r)).1.step (.add 5 true r)).2 =
      .done := by
    decide +kernel
  obtain ⟨hl, hs, -⟩ := h₂.refines_registry
  rw [ha, hb] at hl hs
  refine ⟨(hl r.key).trans ?_, hs.trans ?_⟩
  · simp only [Registry.after, Registry.register, Registry.empty, Registration.join,
      Function.update_self, Finset.pair_comm 5 0]
    rfl
  · have hk : {k | (Registry.after (Registry.after (Registry.after .empty .claimWriter .done)
        (.add 0 false r) .done) (.add 5 true r) .done k).isSome} = {r.key} := by
      ext k
      by_cases hk : k = r.key <;> simp [Registry.after, Registry.register, Registry.empty, hk]
    exact (congrArg Set.ncard hk).trans (Set.ncard_singleton _)

end

end AddressFilter

end EtherBuffer.Filter
