import EtherBuffer.Proofs.Filter.Refinement

/-! Taking an addition back, by a request for the class that the key has after the addition. -/
namespace EtherBuffer.Filter

namespace Registration

/-- What is left of a registration without a client. -/
def rest (client : ℕ) (r : Registration) : Option Registration :=
  if r.clients.erase client = ∅ then none else some { r with clients := r.clients.erase client }

theorem mem_join (client : ℕ) (high : Bool) (appData : UInt32) (old : Option Registration) :
    client ∈ (join client high appData old).clients := by
  cases old with
  | none => exact Finset.mem_singleton_self client
  | some r => exact Finset.mem_insert_self client r.clients

theorem high_join (client : ℕ) (high : Bool) (appData : UInt32) (old : Option Registration) :
    (join client high appData old).high = (high || old.any (·.high)) := by
  cases old with
  | none => exact (Bool.or_false high).symm
  | some r => exact Bool.or_comm r.high high

theorem erase_join (client : ℕ) (high : Bool) (appData : UInt32) (old : Option Registration) :
    (join client high appData old).clients.erase client =
      ((old.map Registration.clients).getD ∅).erase client := by
  cases old with
  | none => exact Finset.erase_singleton client
  | some r => exact Finset.erase_insert_eq_erase r.clients client

theorem clients_rest (client : ℕ) (r : Registration) :
    ((r.rest client).map Registration.clients).getD ∅ = r.clients.erase client := by
  unfold rest
  split_ifs with h
  · exact h.symm
  · rfl

theorem drop_of_high {client : ℕ} {r : Registration} (h : client ∈ r.clients) :
    r.drop client r.high = r.rest client := by
  unfold drop rest
  rw [if_pos ⟨rfl, h⟩]

end Registration

namespace Registry

variable {m : Registry} {k : Key} {client : ℕ} {high asked : Bool} {appData : UInt32}

theorem register_self :
    m.register k client high appData k = some (.join client high appData (m k)) :=
  Function.update_self ..

/-- After an addition the client is found in the class that prevails, and in no other. -/
theorem has_register_iff :
    (m.register k client high appData).Has k client asked ↔
      asked = (high || (m k).any (·.high)) := by
  unfold Has
  rw [register_self, ← Registration.high_join client high appData]
  constructor
  · rintro ⟨r, hr, hh, -⟩
    rw [← hh, Option.some.inj hr]
  · rintro rfl
    exact ⟨_, rfl, rfl, Registration.mem_join client high appData (m k)⟩

/-- An addition that was taken back has changed no key but its own. -/
theorem withdraw_register (h : asked = (high || (m k).any (·.high))) :
    (m.register k client high appData).withdraw k client asked =
      Function.update m k ((Registration.join client high appData (m k)).rest client) := by
  rw [← Registration.high_join client high appData] at h
  unfold withdraw
  rw [register_self, Option.bind_some, h,
    Registration.drop_of_high (Registration.mem_join client high appData (m k))]
  exact Function.update_idem ..

end Registry

namespace AddressFilter
variable {n : ℕ} [Positive n] {f : AddressFilter n} {m : Registry} {client : ℕ} {high : Bool}
  {r : Request}

def clientsOf (f : AddressFilter n) (k : Key) : Finset ℕ :=
  ((f.lookup k).map (·.recipients.clients)).getD ∅

def isHigh (f : AddressFilter n) (k : Key) : Bool :=
  (f.lookup k).any (·.recipients.isHigh)

theorem Mirrors.clientsOf_eq {t : Table n} (h : f.Mirrors t) (k : Key) :
    f.clientsOf k = ((t.registry k).map Registration.clients).getD ∅ := by
  unfold clientsOf Table.registry
  rw [h.lookup_eq, Option.map_map]
  rfl

theorem Mirrors.isHigh_eq {t : Table n} (h : f.Mirrors t) (k : Key) :
    f.isHigh k = (t.registry k).any (·.high) := by
  unfold isHigh Table.registry
  rw [h.lookup_eq, Option.any_map]
  rfl

theorem step_delete (f : AddressFilter n) (client : ℕ) (high : Bool) (r : Request) :
    ∃ changed, (f.step (.delete client high r)).2 = .deleted changed := by
  rw [step]
  cases f.delete client high r with
  | some g => exact ⟨true, rfl⟩
  | none => exact ⟨false, rfl⟩

/-- An addition is taken back by a removal from the class that the key then has. All else is reported as
before. -/
theorem Used.add_undone (h : Used f m) (ha : (f.step (.add client high r)).2 = .done)
    (asked : Bool) :
    let undone := (f.step (.add client high r)).1.step (.delete client asked r)
    (undone.2 = .deleted true ↔ asked = (high || f.isHigh r.key)) ∧
      (undone.2 = .deleted true →
        undone.1.clientsOf r.key = (f.clientsOf r.key).erase client ∧
        ∀ k ≠ r.key, undone.1.lookup k = f.lookup k) := by
  intro undone
  obtain ⟨t, hm, hv, -⟩ := h.mirrors
  obtain ⟨u, hmu, hvu, hru, -⟩ := hm.step_spec hv (.add client high r)
  obtain ⟨w, hmw, -, hrw, hanswer⟩ := hmu.step_spec hvu (.delete client asked r)
  obtain ⟨changed, hchanged⟩ := step_delete (f.step (.add client high r)).1 client asked r
  have hu : u.registry = t.registry.register r.key client high r.appData := by
    rw [hru, ha]
    rfl
  have hiff : undone.2 = .deleted true ↔ asked = (high || f.isHigh r.key) := by
    have hhas : changed = true ↔ u.registry.Has r.key client asked := by
      rw [hchanged] at hanswer
      exact hanswer
    have hclass : (t.registry.register r.key client high r.appData).Has r.key client asked ↔
        asked = (high || (t.registry r.key).any (·.high)) := Registry.has_register_iff
    rw [hm.isHigh_eq, ← hclass, ← hu, ← hhas]
    change (_ = Answer.deleted true) ↔ _
    rw [hchanged, Answer.deleted.injEq]
  refine ⟨hiff, fun hd => ?_⟩
  have hw : w.registry = Function.update t.registry r.key
      ((Registration.join client high r.appData (t.registry r.key)).rest client) := by
    have hasked := hiff.mp hd
    rw [hm.isHigh_eq] at hasked
    rw [← Registry.withdraw_register hasked, ← hu, hrw, hchanged]
    rfl
  constructor
  · rw [hmw.clientsOf_eq, hm.clientsOf_eq, hw, Function.update_self, Registration.clients_rest,
      Registration.erase_join]
  · intro k hk
    have hkey : w.registry k = t.registry k := by rw [hw, Function.update_of_ne hk]
    rw [hmw.lookup_eq, hm.lookup_eq]
    exact Option.map_injective Hit.registration_injective hkey

/-- A client that asks for the low class is put into the high one, which another client gave the key. -/
theorem Used.add_undone_prevailing :
    let r : Request := { address := ⟨#v[2, 0, 0, 0, 0, 1]⟩ }
    let f := (((empty 4).step .claimWriter).1.step (.add 0 true r)).1
    let undone := (f.step (.add 5 false r)).1.step (.delete 5 true r)
    (f.step (.add 5 false r)).2 = .done ∧ undone.2 = .deleted true ∧
      undone.1.clientsOf r.key = {0} := by
  intro r f undone
  have h := (Used.start (n := 4).step .claimWriter trivial).step (.add 0 true r) rfl
  have ha : (f.step (.add 5 false r)).2 = .done := by decide +kernel
  have hhigh : f.isHigh r.key = true := by decide +kernel
  have hclients : f.clientsOf r.key = {0} := by decide +kernel
  obtain ⟨hiff, hundone⟩ := Used.add_undone h ha true
  have hd : undone.2 = .deleted true := by
    refine hiff.mpr ?_
    rw [hhigh]
    rfl
  refine ⟨ha, hd, (hundone hd).1.trans ?_⟩
  rw [hclients]
  rfl

/-- The same client is not removed by a request for the class that it asked for. -/
theorem Used.low_addition_stays :
    ∃ (f : AddressFilter 4) (m : Registry) (client : ℕ) (high : Bool) (r : Request),
      Used f m ∧ f.writerClaimed = true ∧ client < Recipients.capacity ∧
        (f.step (.add client high r)).2 = .done ∧
        ((f.step (.add client high r)).1.step (.delete client high r)).2 ≠ .deleted true := by
  let r : Request := { address := ⟨#v[2, 0, 0, 0, 0, 1]⟩ }
  have h := (Used.start (n := 4).step .claimWriter trivial).step (.add 0 true r) rfl
  exact ⟨_, _, 5, false, r, h, by decide +kernel, by decide, by decide +kernel, by decide +kernel⟩

end AddressFilter

end EtherBuffer.Filter
