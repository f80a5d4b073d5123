import EtherBuffer.Proofs.Filter.Insertion
import Mathlib.Logic.Function.Basic

/-! What a filter promises, as a map from keys to what is registered for them. -/
namespace EtherBuffer.Filter

/-- The clients of a key with their class. -/
structure Registration where
  clients : Finset ℕ
  high : Bool
  appData : UInt32
  deriving DecidableEq

namespace Registration

/-- The high class prevails. -/
def join (client : ℕ) (high : Bool) (appData : UInt32) : Option Registration → Registration
  | none => ⟨{client}, high, appData⟩
  | some r => ⟨insert client r.clients, r.high || high, appData⟩

/-- Nothing is left of a registration for nobody. -/
def drop (client : ℕ) (high : Bool) (r : Registration) : Option Registration :=
  if r.high = high ∧ client ∈ r.clients then
    if r.clients.erase client = ∅ then none else some { r with clients := r.clients.erase client }
  else some r

end Registration

abbrev Registry := Key → Option Registration

namespace Registry

def empty : Registry := fun _ => none

noncomputable def size (m : Registry) : ℕ :=
  {k | (m k).isSome}.ncard

/-- The client is registered for the key, in the class. -/
def Has (m : Registry) (k : Key) (client : ℕ) (high : Bool) : Prop :=
  ∃ r, m k = some r ∧ r.high = high ∧ client ∈ r.clients

def register (m : Registry) (k : Key) (client : ℕ) (high : Bool) (appData : UInt32) : Registry :=
  Function.update m k (some (.join client high appData (m k)))

def withdraw (m : Registry) (k : Key) (client : ℕ) (high : Bool) : Registry :=
  Function.update m k ((m k).bind (Registration.drop client high))

def withdrawAll (m : Registry) (client : ℕ) (high : Bool) : Registry :=
  fun k => (m k).bind (Registration.drop client high)

end Registry

def Hit.registration (hit : Hit) : Registration :=
  ⟨hit.recipients.clients, hit.recipients.isHigh, hit.appData⟩

theorem Hit.registration_injective : Function.Injective Hit.registration := by
  rintro ⟨r, a⟩ ⟨s, b⟩ h
  obtain ⟨hc, hh, ha⟩ := Registration.mk.inj h
  congr 1
  exact Recipients.ext_clients hc hh

theorem Hit.registration_drop (client : ℕ) (high : Bool) (hit : Hit) :
    (hit.drop client high).map Hit.registration = hit.registration.drop client high := by
  unfold drop Registration.drop
  by_cases hm : hit.Matches client high
  · have hm' : hit.registration.high = high ∧ client ∈ hit.registration.clients := hm
    rw [if_pos hm, if_pos hm']
    by_cases he : hit.recipients.clients.erase client = ∅
    · have he' : hit.registration.clients.erase client = ∅ := he
      rw [if_pos he, if_pos he', Option.map_none]
    · have he' : ¬ hit.registration.clients.erase client = ∅ := he
      rw [if_neg he, if_neg he', Option.map_some, Hit.registration, Recipients.clients_erase,
        Recipients.isHigh_erase]
      rfl
  · have hm' : ¬ (hit.registration.high = high ∧ client ∈ hit.registration.clients) := hm
    rw [if_neg hm, if_neg hm', Option.map_some]

theorem Hit.registration_join {client : ℕ} (h : client < Recipients.capacity) (high : Bool)
    (appData : UInt32) (old : Option Hit) :
    (Hit.join ⟨.withHigh ⟨Recipients.clientBit client⟩ high, appData⟩ old).registration =
      .join client high appData (old.map Hit.registration) := by
  cases old with
  | none =>
    simp only [Hit.join, Hit.registration, Recipients.clients_single h, Recipients.isHigh_withHigh]
    rfl
  | some old =>
    simp only [Hit.join, Hit.registration, Recipients.clients_union, Recipients.isHigh_union,
      Recipients.clients_single h, Recipients.isHigh_withHigh, Finset.union_singleton]
    rfl

namespace Table
variable {n : ℕ} [Positive n] {t t' : Table n} {k : Key} {client : ℕ} {high : Bool}

def registry (t : Table n) : Registry :=
  fun k => (t.lookup k).map Hit.registration

theorem registry_empty : (Table.empty n).registry = .empty := by
  funext k
  have hl : (Table.empty n).lookup k = none := by
    rw [valid_empty.lookup_eq_none_iff, entries_empty]
    simp
  rw [registry, hl]
  rfl

theorem registry_has_iff :
    t.registry.Has k client high ↔ ∃ hit, t.lookup k = some hit ∧ hit.Matches client high := by
  unfold Registry.Has registry
  constructor
  · rintro ⟨r, hr, hm⟩
    obtain ⟨hit, hl, rfl⟩ := Option.map_eq_some_iff.mp hr
    exact ⟨hit, hl, hm⟩
  · rintro ⟨hit, hl, hm⟩
    exact ⟨hit.registration, by rw [hl]; rfl, hm⟩

theorem Valid.size_eq_registry (h : t.Valid) : t.size = t.registry.size := by
  rw [h.size_eq_ncard, Registry.size]
  simp only [registry, Option.isSome_map]

theorem Valid.registry_proper (h : t.Valid) {r : Registration} (hr : t.registry k = some r) :
    k ≠ .zero ∧ r.clients.Nonempty := by
  obtain ⟨hit, hl, rfl⟩ := Option.map_eq_some_iff.mp hr
  have hm := h.lookup_eq_some_iff.mp hl
  exact ⟨h.proper.key_ne ⟨k, hit⟩ hm, h.proper.clients_nonempty ⟨k, hit⟩ hm⟩

theorem registry_register (hc : client < Recipients.capacity) {appData : UInt32}
    (hl : ∀ k', t'.lookup k' = if k' = k then some (Hit.join
      ⟨.withHigh ⟨Recipients.clientBit client⟩ high, appData⟩ (t.lookup k)) else t.lookup k') :
    t'.registry = t.registry.register k client high appData := by
  funext k'
  unfold Registry.register
  rw [Function.update_apply]
  simp only [registry, hl]
  split_ifs
  · rw [Option.map_some, Hit.registration_join hc]
  · rfl

theorem map_registration_bind_drop (x : Option Hit) :
    (x.bind (Hit.drop client high)).map Hit.registration =
      (x.map Hit.registration).bind (Registration.drop client high) := by
  cases x with
  | none => rfl
  | some hit => exact Hit.registration_drop client high hit

theorem registry_withdraw (hl : ∀ k', t'.lookup k' =
      (t.lookup k').bind fun hit => if k' = k then hit.drop client high else some hit) :
    t'.registry = t.registry.withdraw k client high := by
  funext k'
  unfold Registry.withdraw
  rw [Function.update_apply]
  simp only [registry, hl]
  split_ifs with hk
  · rw [hk]
    exact map_registration_bind_drop _
  · rw [Option.bind_fun_some]

theorem registry_withdrawAll
    (hl : ∀ k, t'.lookup k = (t.lookup k).bind (Hit.drop client high)) :
    t'.registry = t.registry.withdrawAll client high := by
  funext k
  simp only [registry, hl]
  exact map_registration_bind_drop _

end Table

end EtherBuffer.Filter
