import EtherBuffer.Proofs.Filter.Agreement
import EtherBuffer.Proofs.Filter.Displacement
import EtherBuffer.Proofs.Filter.Undoing

/-! Putting a removed client back. One of the two slots of its key is open to it, be the table as full
as it may. -/
namespace EtherBuffer.Filter

namespace Registration

/-- A client that joins the class that it left finds all but the application data as it was. -/
theorem join_rest {client : ℕ} {r : Registration} (h : client ∈ r.clients) (appData : UInt32) :
    join client r.high appData (r.rest client) = { r with appData } := by
  unfold rest
  split_ifs with he
  · obtain hnone | hone := Finset.erase_eq_empty_iff _ _ |>.mp he
    · rw [hnone] at h
      exact absurd h (Finset.notMem_empty client)
    · rw [join, hone]
  · rw [join, Finset.insert_erase h, Bool.or_self]

end Registration

namespace Registry
variable {m : Registry} {k : Key} {client : ℕ} {high : Bool}

theorem register_withdraw (h : m.Has k client high) (appData : UInt32) :
    (m.withdraw k client high).register k client high appData =
      Function.update m k ((m k).map fun r => { r with appData }) := by
  obtain ⟨r, hr, rfl, hmem⟩ := h
  unfold register withdraw
  rw [Function.update_self, Function.update_idem, hr, Option.bind_some,
    Registration.drop_of_high hmem, Registration.join_rest hmem, Option.map_some]

end Registry

namespace Table
variable {n : ℕ} [Positive n] {t t' : Table n} {e : Entry} {k : Key} {client : ℕ} {high : Bool}

/-- The slot is one of the two of a key, and has no entry of another key. -/
def OpenTo (t : Table n) (k : Key) (i : Fin n) : Prop :=
  (∃ c, i = t.index c k) ∧ ∀ e, t.slots.get i = some e → e.key = k

/-- The slot of an entry that loses a client is open to its key. -/
theorem Valid.delete_opens (h : t.Valid) (hd : t.delete k client high = some t') :
    ∃ i, t'.OpenTo k i := by
  obtain ⟨i, hf, hr⟩ := Option.bind_eq_some_iff.mp hd
  obtain ⟨hit, hi⟩ := h.find?_eq_some_iff.mp hf
  obtain ⟨c, hc⟩ := h.placed i _ hi
  by_cases hm : hit.Matches client high
  swap
  · rw [reduceSlot_of_not fun e he => Option.some.inj (hi.symm.trans he) ▸ hm] at hr
    cases hr
  obtain ⟨u, hu, hs, h₁, h₂, -⟩ := reduceSlot_of_matches hi hm
  obtain rfl : u = t' := Option.some.inj (hu.symm.trans hr)
  refine ⟨i, ⟨c, by rw [hc, index_congr h₁ h₂]⟩, fun e he => ?_⟩
  rw [hs, get_put, if_pos rfl] at he
  obtain ⟨left, -, rfl⟩ := Option.map_eq_some_iff.mp he
  rfl

/-- No polynomials are tried for a key to which a slot is open. -/
theorem Valid.add_of_open (h : t.Valid) (hz : e.key ≠ .zero) {i : Fin n} (hi : t.OpenTo e.key i)
    (s : Table n) : ∃ u, t.add s e = (u, .ok false) := by
  obtain ⟨⟨c, rfl⟩, hkey⟩ := hi
  -- A full table refuses only a key without an entry, and such a key has the open slot for itself.
  have hins : (t.insert e false).2 = true ∧ ¬ (n ≤ t.size ∧ t.find? e.key = none) := by
    cases hs : t.slots.get (t.index c e.key) with
    | none => exact ⟨insert_of_vacant false hs, h.not_full hs e.key⟩
    | some x =>
      have hx : x = ⟨e.key, x.hit⟩ := by rw [← hkey x hs]
      have hf := h.find?_eq_some_iff.mpr ⟨x.hit, hx ▸ hs⟩
      exact ⟨by rw [insert, hf], by rw [hf]; exact fun hfull => Option.some_ne_none _ hfull.2⟩
  rw [add_of_room hz hins.2, if_pos hins.1]
  exact ⟨_, rfl⟩

end Table

namespace AddressFilter
variable {n : ℕ} [Positive n] {f : AddressFilter n} {t t' : Table n} {m : Registry} {client : ℕ}
  {high : Bool} {r : Request}

theorem Mirrors.step_add_of_open (h : f.Mirrors t) (hv : t.Valid)
    (hc : client < Recipients.capacity) (high : Bool) (hz : r.key ≠ .zero) {i : Fin n}
    (hi : t.OpenTo r.key i) :
    ∃ u, t.add t (entryOf client high r) = (u, .ok false) ∧
      u.registry = t.registry.register r.key client high r.appData ∧
      (f.step (.add client high r)).1.Mirrors u ∧ (f.step (.add client high r)).2 = .done := by
  obtain ⟨u, hu⟩ := hv.add_of_open (e := entryOf client high r) hz hi t
  obtain ⟨-, ha⟩ | ⟨-, -, ha⟩ | ⟨u', refilled, ha, -, -, hl⟩ :=
    hv.add_spec (entryOf_nonempty hc high r)
  · simp [hu] at ha
  · simp [hu] at ha
  obtain ⟨rfl, -⟩ := Prod.mk.inj (hu.symm.trans ha)
  have hadd : f.add client high r = ((f.publish u).addAgain (entryOf client high r), .ok ()) := by
    rw [h.add_eq hc, hu]
    rfl
  refine ⟨u, hu, Table.registry_register hc hl, ?_, ?_⟩
  · rw [step, hadd]
    exact h.mirrors_added hu
  · rw [step, hadd]

/-- A client that is removed can be added again without filling anew, and lookups then report all but
the application data as before. -/
theorem Used.delete_undone (h : Used f m)
    (hd : (f.step (.delete client high r)).2 = .deleted true) :
    let g := (f.step (.delete client high r)).1
    let e := entryOf client high r
    ∃ u, g.backup.add g.active e = (u, .ok false) ∧
      (g.publish u).backup.add (g.publish u).active e = (u, .ok false) ∧
      (g.step (.add client high r)).1.Mirrors u ∧ (g.step (.add client high r)).2 = .done ∧
      ∀ k, (g.step (.add client high r)).1.lookup k =
        if k = r.key then (f.lookup k).map fun hit => { hit with appData := r.appData }
        else f.lookup k := by
  intro g e
  obtain ⟨t, hm, hv, -⟩ := h.mirrors
  obtain ⟨-, -, -, -, hanswer⟩ := hm.step_spec hv (.delete client high r)
  rw [hd] at hanswer
  have hhas : t.registry.Has r.key client high := hanswer.mp rfl
  obtain ⟨hit, hl, hmatch⟩ := Table.registry_has_iff.mp hhas
  have hc : client < Recipients.capacity := (Recipients.mem_clients.mp hmatch.2).1
  have hz : r.key ≠ .zero := hv.proper.key_ne _ (hv.lookup_eq_some_iff.mp hl)
  obtain ⟨t', hdel, hv', hl'⟩ := hv.delete_of_matches hl hmatch
  have hg : g = (f.publish t').setBackup t' := by
    change (f.step (.delete client high r)).1 = _
    rw [AddressFilter.step, hm.delete_eq_some (Nat.not_le.mpr hc) hdel]
  have hmg : g.Mirrors t' := hg ▸ mirrors_publish t'
  obtain ⟨i, hi⟩ := hv.delete_opens hdel
  obtain ⟨u, hu, hru, hmu, hdone⟩ := hmg.step_add_of_open hv' hc high hz hi
  have hfirst : g.backup.add g.active e = (u, .ok false) := by
    rw [hmg.backup_eq, hmg.active_eq]
    exact hu
  refine ⟨u, hfirst, hmg.add_publish hfirst, hmu, hdone, fun k => ?_⟩
  rw [Table.registry_withdraw hl', Registry.register_withdraw hhas] at hru
  apply Option.map_injective Hit.registration_injective
  rw [hmu.lookup_eq, hm.lookup_eq]
  change u.registry k = _
  rw [hru, Function.update_apply]
  split_ifs with hk
  · rw [hk, Table.registry, Option.map_map, Option.map_map]
    rfl
  · rfl

/-- A full table of four addresses, of which one is removed and added again. -/
theorem Used.delete_undone_full :
    let r (a : UInt8) (appData : UInt32) : Request := { address := ⟨#v[2, 0, 0, 0, 0, a]⟩, appData }
    let f := ((((((empty 4).step .claimWriter).1.step (.add 0 false (r 1 0))).1.step
      (.add 0 false (r 6 0))).1.step (.add 0 false (r 12 0))).1.step (.add 0 true (r 3 0))).1
    let g := (f.step (.delete 0 false (r 6 5))).1
    f.size = 4 ∧ g.lookup (r 6 5).key = none ∧
      ∃ u, g.backup.add g.active (entryOf 0 false (r 6 5)) = (u, .ok false) ∧
        (g.step (.add 0 false (r 6 5))).2 = .done ∧
        (g.step (.add 0 false (r 6 5))).1.lookup (r 6 5).key = some ⟨⟨1⟩, 5⟩ := by
  intro r f g
  have h₀ := Used.start (n := 4).step .claimWriter trivial
  have h₁ := Used.update ⟨h₀, rfl⟩ (.add 0 false (r 1 0)) id nofun
  have h₂ := Used.update h₁ (.add 0 false (r 6 0)) id nofun
  have h₃ := Used.update h₂ (.add 0 false (r 12 0)) id nofun
  obtain ⟨h₄, -⟩ := Used.update h₃ (.add 0 true (r 3 0)) id nofun
  have hd : (f.step (.delete 0 false (r 6 5))).2 = .deleted true := by decide +kernel
  obtain ⟨u, hu, -, -, hdone, hlookup⟩ := Used.delete_undone h₄ hd
  refine ⟨by decide +kernel, by decide +kernel, u, hu, hdone, (hlookup _).trans ?_⟩
  rw [if_pos rfl]
  decide +kernel

end AddressFilter

end EtherBuffer.Filter
