import EtherBuffer.Proofs.Filter.Collision

/-! One displacement. An entry that was stored under the first polynomial comes back to the slot that it
just left. -/
namespace EtherBuffer.Filter

namespace Table
variable {n : ℕ} [Positive n] {t t' : Table n} {e old : Entry}

theorem index_put (t : Table n) (i : Fin n) (x : Option Entry) (c : Choice) (k : Key) :
    (t.put i x).index c k = t.index c k :=
  index_congr rfl rfl c k

theorem Valid.not_full (h : t.Valid) {i : Fin n} (hi : t.slots.get i = none) (k : Key) :
    ¬ (n ≤ t.size ∧ t.find? k = none) := by
  have := card_entries_lt hi
  rw [h.size_eq]
  omega

/-- Two entries push each other out of one slot and never look at another one. -/
theorem place_of_cycle {i : Fin n} (he : t.index .second e.key = i)
    (ho : t.index .first old.key = i) (steps : ℕ) :
    (t.slots.get i = some old → (t.place e .second true steps).2 = false) ∧
      (t.slots.get i = some e → (t.place old .first true steps).2 = false) := by
  induction steps generalizing t with
  | zero => exact ⟨fun _ => rfl, fun _ => rfl⟩
  | succ steps ih =>
    have hput (x : Entry) : (t.put i (some x)).slots.get i = some x := by
      rw [get_put, if_pos rfl]
    refine ⟨fun hi => ?_, fun hi => ?_⟩
    · rw [← he] at hi
      rw [place_of_taken hi, if_pos rfl, he]
      exact (ih (by rw [index_put, he]) (by rw [index_put, ho])).2 (hput e)
    · rw [← ho] at hi
      rw [place_of_taken hi, if_pos rfl, ho]
      exact (ih (by rw [index_put, he]) (by rw [index_put, ho])).1 (hput old)

section Chain

variable (h₁ : (t.slots.get (t.index .first e.key)).isSome)
  (h₂ : t.slots.get (t.index .second e.key) = some old)
include h₁ h₂

theorem place_of_both_taken (steps : ℕ) : t.place e .first false (steps + 2) =
    (t.put (t.index .second e.key) (some e)).place old .first true steps := by
  obtain ⟨x, hx⟩ := Option.isSome_iff_exists.mp h₁
  rw [place_of_taken hx, if_neg Bool.false_ne_true, Choice.other, place_of_taken h₂, if_pos rfl]
  rfl

theorem place_of_first_free (hf : t.slots.get (t.index .first old.key) = none) (steps : ℕ) :
    t.place e .first false (steps + 3) =
      ({ (t.put (t.index .second e.key) (some e)).put (t.index .first old.key) (some old) with
        size := t.size + 1 }, true) := by
  have hne : t.index .second e.key ≠ t.index .first old.key := by
    intro heq
    rw [heq, hf] at h₂
    cases h₂
  rw [place_of_both_taken h₁ h₂, place_of_free, index_put]
  · rfl
  · rw [index_put, get_put, if_neg hne, hf]

theorem place_of_first_shared (ho : t.index .first old.key = t.index .second e.key) (steps : ℕ) :
    (t.place e .first false (steps + 2)).2 = false := by
  rw [place_of_both_taken h₁ h₂]
  refine (place_of_cycle (index_put _ _ _ _ _) ((index_put _ _ _ _ _).trans ho) steps).2 ?_
  rw [get_put, if_pos rfl]

end Chain

section Add

variable (h : t.Valid) (hz : e.key ≠ .zero) (hn : t.find? e.key = none)
  (h₁ : (t.slots.get (t.index .first e.key)).isSome)
  (h₂ : t.slots.get (t.index .second e.key) = some old)
include h hz hn h₁ h₂

theorem Valid.add_of_first_free (hf : t.slots.get (t.index .first old.key) = none) :
    t.add t e =
      ({ (t.put (t.index .second e.key) (some e)).put (t.index .first old.key) (some old) with
        size := t.size + 1 }, .ok false) := by
  have hsteps : n + chainMargin = n + 7 + 3 := rfl
  have hins := place_of_first_free h₁ h₂ hf (n + 7)
  rw [add_of_room hz (h.not_full hf e.key), insert, hn, hsteps, hins, if_pos rfl]

theorem Valid.add_of_second_free (hf : t.slots.get (t.index .second old.key) = none) :
    t.add t e =
      match t.refill t.toList e maxRefills with
      | some u => (u, .ok true)
      | none => (t, .error .tableFull) := by
  have hsteps : n + chainMargin = n + 8 + 2 := rfl
  -- The old entry is not in its second slot, and so it is in its first one.
  obtain ⟨c, hc⟩ := h.placed _ _ h₂
  have hfirst : t.index .first old.key = t.index .second e.key := by
    cases c with
    | first => exact hc.symm
    | second =>
      rw [← hc, h₂] at hf
      cases hf
  have hlost : (t.insert e false).2 = false := by
    rw [insert, hn, hsteps]
    exact place_of_first_shared h₁ h₂ hfirst (n + 8)
  exact (add_of_room hz (h.not_full hf e.key) t).trans (if_neg (ne_true_of_eq_false hlost))

end Add

end Table

namespace AddressFilter
variable {n : ℕ} [Positive n] {f : AddressFilter n} {m : Registry} {e old : Entry}

theorem Used.unregistered (h : Used f m) {k : Key} (hn : f.lookup k = none) : m k = none := by
  rw [← h.lookup_eq, hn]
  rfl

/-- An entry is displaced to a free slot under the first polynomial, but not to one under the second:
then the table is filled anew. -/
theorem Used.add_displaces (h : Used f m) (hz : e.key ≠ .zero) (hl : m e.key = none)
    (h₁ : (f.backup.slots.get (f.backup.index .first e.key)).isSome)
    (h₂ : f.backup.slots.get (f.backup.index .second e.key) = some old) :
    (f.backup.slots.get (f.backup.index .first old.key) = none →
      ∃ u, f.backup.add f.active e = (u, .ok false) ∧
        u.firstPoly = f.backup.firstPoly ∧ u.secondPoly = f.backup.secondPoly ∧
        u.size = f.backup.size + 1 ∧ ∀ i, u.slots.get i =
          if i = f.backup.index .first old.key then some old
          else if i = f.backup.index .second e.key then some e
          else f.backup.slots.get i) ∧
      (f.backup.slots.get (f.backup.index .second old.key) = none →
        f.backup.add f.active e =
          match f.backup.refill f.active.toList e Table.maxRefills with
          | some u => (u, .ok true)
          | none => (f.active, .error .tableFull)) := by
  obtain ⟨t, hm, hv, rfl⟩ := h.mirrors
  have hn : t.find? e.key = none :=
    hv.find?_eq_none_iff.mpr (hv.lookup_eq_none_iff.mp (Option.map_eq_none_iff.mp hl))
  rw [hm.backup_eq] at h₁ h₂ ⊢
  rw [hm.active_eq]
  refine ⟨fun hf => ⟨_, hv.add_of_first_free hz hn h₁ h₂ hf, rfl, rfl, rfl, fun i => ?_⟩,
    hv.add_of_second_free hz hn h₁ h₂⟩
  change ((t.put _ _).put _ _).slots.get i = _
  rw [Table.get_put, Table.get_put]
  simp only [eq_comm]

/-- One address goes on to its first slot, which is free by now. Another has only its second one free,
and the table is filled anew. -/
theorem Used.add_displaces_around :
    let r (a : UInt8) : Request := { address := ⟨#v[2, 0, 0, 0, 0, a]⟩ }
    let start := ((empty 4).step .claimWriter).1
    let f := ((start.step (.add 0 false (r 1))).1.step (.add 0 false (r 6))).1
    let g := ((((start.step (.add 0 false (r 2))).1.step (.add 0 false (r 3))).1.step
      (.delete 0 false (r 2))).1.step (.add 0 false (r 1))).1
    let e := entryOf 0 false (r 12)
    (f.backup.slots.get (f.backup.index .second e.key) = some (entryOf 0 false (r 6)) ∧
      f.backup.slots.get (f.backup.index .second (r 6).key) = none ∧
      ∃ u, f.backup.add f.active e = (u, .ok true) ∧ u.size = 3) ∧
    g.backup.slots.get (g.backup.index .second e.key) = some (entryOf 0 false (r 3)) ∧
      g.backup.slots.get (g.backup.index .first (r 3).key) = none ∧
      ∃ u, g.backup.add g.active e = (u, .ok false) ∧ u.size = 3 ∧
        u.slots.get (g.backup.index .first (r 3).key) = some (entryOf 0 false (r 3)) ∧
        u.slots.get (g.backup.index .second e.key) = some e := by
  intro r start f g e
  have hstart : start.Used _ ∧ start.writerClaimed = true := ⟨Used.start.step .claimWriter trivial, rfl⟩
  constructor
  · have h₁ := Used.update hstart (.add 0 false (r 1)) id nofun
    have h : f.Used _ := (Used.update h₁ (.add 0 false (r 6)) id nofun).1
    have hnew : f.lookup e.key = none := by decide +kernel
    have hold : f.backup.slots.get (f.backup.index .second e.key) = some (entryOf 0 false (r 6)) := by
      decide +kernel
    have hfree : f.backup.slots.get (f.backup.index .second (r 6).key) = none := by
      decide +kernel
    have hadd := (h.add_displaces (by decide) (h.unregistered hnew) (by decide +kernel) hold).2 hfree
    have hrefill : (f.backup.refill f.active.toList e Table.maxRefills).map Table.size = some 3 := by
      decide +kernel
    obtain ⟨u, hu, hsize⟩ := Option.map_eq_some_iff.mp hrefill
    rw [hu] at hadd
    exact ⟨hold, hfree, u, hadd, hsize⟩
  · have h₁ := Used.update hstart (.add 0 false (r 2)) id nofun
    have h₂ := Used.update h₁ (.add 0 false (r 3)) id nofun
    have h₃ := Used.update h₂ (.delete 0 false (r 2)) id nofun
    have h : g.Used _ := (Used.update h₃ (.add 0 false (r 1)) id nofun).1
    have hnew : g.lookup e.key = none := by decide +kernel
    have hold : g.backup.slots.get (g.backup.index .second e.key) = some (entryOf 0 false (r 3)) := by
      decide +kernel
    have hfree : g.backup.slots.get (g.backup.index .first (r 3).key) = none := by
      decide +kernel
    obtain ⟨u, hu, -, -, hsize, hslots⟩ := (h.add_displaces (by decide) (h.unregistered hnew)
      (by decide +kernel) hold).1 hfree
    refine ⟨hold, hfree, u, hu, hsize.trans ?_, ?_, ?_⟩
    · decide +kernel
    · exact (hslots _).trans (if_pos rfl)
    · exact (hslots _).trans ((if_neg (by decide +kernel)).trans (if_pos rfl))

end AddressFilter

end EtherBuffer.Filter
