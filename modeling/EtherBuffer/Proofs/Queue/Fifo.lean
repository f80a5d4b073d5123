import EtherBuffer.Proofs.Queue.Window

/-! A queue of handles in use, as a list with holes. -/
namespace EtherBuffer

/-- The elements that were not passed, with a hole for each that was released, and the number of those
that were passed. -/
structure Fifo where
  passed : ℕ := 0
  window : List (Option Handle) := []

namespace Fifo

inductive Action where
  | add (h : Handle)
  | release (index : ℕ)
  | pop
  | clear

inductive Answer where
  | done
  | full
  | taken (h : Option Handle)
  deriving DecidableEq

/-- Pass the holes in front. -/
def trim (F : Fifo) : Fifo :=
  ⟨F.passed + (F.window.takeWhile Option.isNone).length, F.window.dropWhile Option.isNone⟩

def remove (F : Fifo) (j : ℕ) : Fifo :=
  trim { F with window := F.window.set j none }

/-- The number of the element in a slot, counted from the front. -/
def position (F : Fifo) (n index : ℕ) : ℕ :=
  (index + (n - F.passed % n)) % n

def stored (F : Fifo) (n : ℕ) : List (ℕ × Handle) :=
  (F.window.zipIdx F.passed).filterMap fun (x, j) => x.map fun h => (j % n, h)

def after (n : ℕ) (F : Fifo) : Action → Fifo
  | .add h => if F.window.length < n then { F with window := F.window ++ [some h] } else F
  | .release index => F.remove (F.position n index)
  | .pop => F.remove 0
  | .clear => {}

theorem map_stored (F : Fifo) (n : ℕ) : (F.stored n).map Prod.snd = F.window.filterMap id := by
  conv_rhs => rw [← List.zipIdx_map_fst F.passed F.window, List.filterMap_map]
  unfold stored
  rw [List.map_filterMap]
  simp only [Option.map_map, Function.comp_def, Option.map_id', id]

def answer (n : ℕ) (F : Fifo) : Action → Answer
  | .add _ => if F.window.length < n then .done else .full
  | .release _ | .clear => .done
  | .pop => .taken F.window.head?.join

end Fifo

namespace SlotQueue

variable {n : ℕ} [Positive n]

def step (q : SlotQueue n) : Fifo.Action → Except Fault (SlotQueue n × Fifo.Answer)
  | .add h =>
    match q.add h with
    | .ok q' => .ok (q', .done)
    | .error _ => .ok (q, .full)
  | .release index => (q.freeIndex index).map fun q' => (q', .done)
  | .pop => q.pop.map fun (h, q') => (q', .taken h)
  | .clear => .ok (.empty n, .done)

/-- Only an occupied slot may be released. -/
def Permits (q : SlotQueue n) : Fifo.Action → Prop
  | .release index => (q.get index).isSome
  | .add _ | .pop | .clear => True

/-- A queue that was used from the start, with what was made of the list meanwhile. -/
inductive Used : SlotQueue n → Fifo → Prop
  | start : Used (.empty n) {}
  | step {q q' : SlotQueue n} {F : Fifo} {answer : Fifo.Answer} (a : Fifo.Action) : Used q F →
      q.Permits a → q.step a = .ok (q', answer) → Used q' (F.after n a)

/-- The window of the queue is the list, and its first slot comes after all that was passed. -/
structure Tracks (q : SlotQueue n) (F : Fifo) : Prop where
  window : q.Window F.window
  readIndex_eq : q.readIndex.val = F.passed % n

theorem place_left_inj {i k : Fin n} {j : ℕ} (h : place i j = place k j) : i = k := by
  have hv := congrArg Fin.val h
  rw [val_place, val_place] at hv
  have := Nat.ModEq.add_right_cancel' j hv
  rw [Nat.ModEq, Nat.mod_eq_of_lt i.isLt, Nat.mod_eq_of_lt k.isLt] at this
  exact Fin.ext this

theorem place_sub (i : Fin n) (j : ℕ) : (place i j - i).val = j % n := by
  rw [Fin.sub_def, val_place]
  change (n - i.val + (i.val + j) % n) % n = j % n
  rw [Nat.add_mod_mod, ← Nat.add_assoc, Nat.sub_add_cancel i.isLt.le, Nat.add_mod_left]

theorem freeIndex_mod (q : SlotQueue n) (index : ℕ) :
    q.freeIndex (Fin.ofNat n index).val = q.freeIndex index := by
  have : Fin.ofNat n (Fin.ofNat n index).val = Fin.ofNat n index :=
    Fin.ext (Nat.mod_mod index n)
  unfold SlotQueue.freeIndex
  rw [this]

theorem freeIndex_writeIndex {q q' : SlotQueue n} {index : ℕ} (h : q.freeIndex index = .ok q') :
    q'.writeIndex = q.writeIndex := by
  unfold SlotQueue.freeIndex at h
  dsimp only at h
  split_ifs at h <;> rw [← Except.ok.inj h]

namespace Tracks

variable {q : SlotQueue n} {F : Fifo}

theorem empty : (SlotQueue.empty n).Tracks {} where
  window := .empty
  readIndex_eq := (Nat.zero_mod n).symm

theorem position_lt (F : Fifo) (index : ℕ) : F.position n index < n :=
  Nat.mod_lt _ (Nat.pos_of_ne_zero (NeZero.ne n))

theorem place_position (h : q.Tracks F) (index : ℕ) :
    place q.readIndex (F.position n index) = Fin.ofNat n index := by
  have hlt := Nat.mod_lt F.passed (Nat.pos_of_ne_zero (NeZero.ne n))
  apply Fin.ext
  rw [val_place, h.readIndex_eq, Fifo.position, Nat.add_mod_mod, Fin.val_ofNat, Nat.add_comm index,
    ← Nat.add_assoc, Nat.add_sub_cancel' hlt.le, Nat.add_mod_left]

theorem get_eq (h : q.Tracks F) (index : ℕ) :
    q.get index = F.window[F.position n index]?.join := by
  unfold SlotQueue.get
  rw [← h.place_position]
  exact h.window.lies.get_eq _ (position_lt F index)

theorem add (h : q.Tracks F) (hw : F.window.length < n) (x : Handle) :
    ∃ q', q.add x = .ok q' ∧ q'.Tracks { F with window := F.window ++ [some x] } := by
  obtain ⟨q', hq, hw'⟩ := h.window.add hw x
  refine ⟨q', hq, hw', ?_⟩
  unfold SlotQueue.add at hq
  split_ifs at hq
  rw [← Except.ok.inj hq]
  exact h.readIndex_eq

theorem release (h : q.Tracks F) {index : ℕ} {x : Handle} (hx : q.get index = some x) :
    ∃ q', q.freeIndex index = .ok q' ∧ q'.Tracks (F.remove (F.position n index)) := by
  obtain ⟨j, q', hj, hjw, hq, hw⟩ := h.window.freeIndex hx
  rw [freeIndex_mod] at hq
  have hle := h.window.lies.length_le
  obtain rfl : j = F.position n index := by
    apply place_inj _ (position_lt F index) (hj.symm.trans (h.place_position index).symm)
    have := (List.getElem?_eq_some_iff.mp hjw).1
    omega
  refine ⟨q', hq, hw, ?_⟩
  -- The write index stays, so that the read index moves as far as the window gets shorter.
  let w := F.window.set (F.position n index) none
  have hlen : F.window.length =
      (w.takeWhile Option.isNone).length + (w.dropWhile Option.isNone).length := by
    rw [← List.length_append, List.takeWhile_append_dropWhile, List.length_set]
  have hread : q'.readIndex = place q.readIndex (w.takeWhile Option.isNone).length := by
    apply place_left_inj (j := (w.dropWhile Option.isNone).length)
    rw [place_place, ← hlen, ← h.window.writeIndex_eq, ← freeIndex_writeIndex hq]
    exact hw.writeIndex_eq.symm
  rw [hread, val_place, h.readIndex_eq, Nat.mod_add_mod]
  rfl

theorem pop (h : q.Tracks F) :
    ∃ q', q.pop = .ok (F.window.head?.join, q') ∧ q'.Tracks (F.remove 0) := by
  unfold SlotQueue.pop
  cases hp : q.peek with
  | none =>
    have hnil : F.window = [] := h.window.eq_nil_of_isEmpty (Option.isNone_iff_eq_none.mpr hp)
    refine ⟨q, by rw [hnil]; rfl, ?_⟩
    have hself : F.remove 0 = F := by
      obtain ⟨passed, window⟩ := F
      obtain rfl : window = [] := hnil
      rfl
    rw [hself]
    exact h
  | some x =>
    have hofNat : Fin.ofNat n q.readIndex.val = q.readIndex :=
      Fin.ext (Nat.mod_eq_of_lt q.readIndex.isLt)
    have hx : q.get q.readIndex.val = some x := by
      unfold SlotQueue.get
      rw [hofNat]
      exact hp
    have hzero : F.position n q.readIndex.val = 0 := by
      apply place_inj (position_lt F _) q.readIndex.pos
      rw [h.place_position, hofNat, place_zero]
    obtain ⟨q', hq, ht⟩ := h.release hx
    rw [hzero] at ht
    refine ⟨q', ?_, ht⟩
    rw [← h.window.peek_eq, hp, hq]
    rfl

theorem spread_eq (h : q.Tracks F) : q.spread = F.window.length := by
  have hle := h.window.lies.length_le
  unfold SlotQueue.spread
  rw [h.window.isFull_eq]
  by_cases hw : F.window.length = n
  · rw [if_pos (decide_eq_true hw), hw]
  · rw [if_neg (by simpa using hw), h.window.writeIndex_eq]
    rw [place_sub, Nat.mod_eq_of_lt (by omega)]

theorem zipIdx_eq {α : Type} (w : List (Option α)) (first : ℕ) :
    w.zipIdx first = (List.range w.length).map fun j => (w[j]?.join, first + j) := by
  apply List.ext_getElem
  · simp
  · intro j hj _
    have hlt : j < w.length := by simpa using hj
    simp [hlt]

theorem toList_eq (h : q.Tracks F) :
    q.toList.map (fun x => (x.1.val, x.2)) = F.stored n := by
  have hle := h.window.lies.length_le
  unfold SlotQueue.toList Fifo.stored
  rw [h.spread_eq, zipIdx_eq, List.filterMap_map, List.map_filterMap]
  apply List.filterMap_congr
  intro j hj
  have hlt : j < n := (List.mem_range.mp hj).trans_le hle
  have hget : q.slots.get (q.readIndex + Fin.ofNat n j) = F.window[j]?.join :=
    h.window.lies.get_eq j hlt
  have hval : (q.readIndex + Fin.ofNat n j).val = (F.passed + j) % n := by
    rw [← place, val_place, h.readIndex_eq, Nat.mod_add_mod]
  simp only [hget, Option.map_map, Function.comp_apply, Function.comp_def, hval]

theorem size_eq (h : q.Tracks F) : q.size = (F.stored n).length := by
  have hc : (F.window.zipIdx F.passed).countP (fun x => x.1.isSome) =
      F.window.countP Option.isSome := by
    conv_rhs => rw [← List.zipIdx_map_fst F.passed F.window, List.countP_map]
    rfl
  unfold SlotQueue.size Fifo.stored
  rw [h.window.lies.countP_eq, List.length_filterMap_eq_countP, ← hc]
  simp only [Option.isSome_map]

theorem peek_eq (h : q.Tracks F) : q.peek = (F.stored n).head?.map Prod.snd := by
  rw [h.window.peek_eq]
  unfold Fifo.stored
  cases hw : F.window with
  | nil => rfl
  | cons x w =>
    obtain ⟨y, rfl⟩ := Option.isSome_iff_exists.mp (h.window.front x (by rw [hw]; rfl))
    rfl

theorem step (h : q.Tracks F) {a : Fifo.Action} (ha : q.Permits a) :
    ∃ q', q.step a = .ok (q', F.answer n a) ∧ q'.Tracks (F.after n a) := by
  cases a with
  | add x =>
    unfold SlotQueue.step
    by_cases hw : F.window.length < n
    · obtain ⟨q', hq, ht⟩ := h.add hw x
      simp only [Fifo.answer, Fifo.after, if_pos hw, hq]
      exact ⟨q', rfl, ht⟩
    · have hle := h.window.lies.length_le
      have hq := h.window.add_full (by omega) x
      simp only [Fifo.answer, Fifo.after, if_neg hw, hq]
      exact ⟨q, rfl, h⟩
  | release index =>
    obtain ⟨x, hx⟩ := Option.isSome_iff_exists.mp ha
    obtain ⟨q', hq, ht⟩ := h.release hx
    exact ⟨q', by rw [SlotQueue.step, hq]; rfl, ht⟩
  | pop =>
    obtain ⟨q', hq, ht⟩ := h.pop
    exact ⟨q', by rw [SlotQueue.step, hq]; rfl, ht⟩
  | clear => exact ⟨_, rfl, .empty⟩

end Tracks

def handles (q : SlotQueue n) : List Handle :=
  q.toList.map Prod.snd

theorem Window.handles_solid {q : SlotQueue n} {handles : List Handle}
    (h : q.Window (handles.map some)) : q.handles = handles := by
  have ht : q.Tracks ⟨q.readIndex, handles.map some⟩ := ⟨h, (Nat.mod_eq_of_lt q.readIndex.isLt).symm⟩
  have hlist := congrArg (List.map Prod.snd) ht.toList_eq
  rw [Fifo.map_stored, List.map_map, List.filterMap_map] at hlist
  exact hlist.trans List.filterMap_some

theorem Used.tracks {q : SlotQueue n} {F : Fifo} (h : Used q F) : q.Tracks F := by
  induction h with
  | start => exact .empty
  | step a _ ha hs ih =>
    obtain ⟨q', hq, ht⟩ := ih.step ha
    rw [hs] at hq
    obtain ⟨rfl, -⟩ := Prod.mk.inj (Except.ok.inj hq)
    exact ht

/-- A queue is the list of what was added, with holes that are passed when they come to the front, and
no permitted request faults. -/
theorem Used.refines_fifo {q : SlotQueue n} {F : Fifo} (h : Used q F) :
    q.Window F.window ∧ q.readIndex.val = F.passed % n ∧
      (∀ index, q.get index = F.window[F.position n index]?.join) ∧
      q.peek = (F.stored n).head?.map Prod.snd ∧ q.isFull = decide (F.window.length = n) ∧
      q.isEmpty = F.window.isEmpty ∧ q.size = (F.stored n).length ∧
      q.toList.map (fun x => (x.1.val, x.2)) = F.stored n ∧
      (∀ x, F.window.length = n → q.step (.add x) = .ok (q, .full)) ∧
      ∀ a, q.Permits a → ∃ q', q.step a = .ok (q', F.answer n a) ∧ Used q' (F.after n a) := by
  have ht := h.tracks
  refine ⟨ht.window, ht.readIndex_eq, ht.get_eq, ht.peek_eq, ht.window.isFull_eq,
    ht.window.isEmpty_eq, ht.size_eq, ht.toList_eq, fun x hx => ?_, fun a ha => ?_⟩
  · simp only [SlotQueue.step, ht.window.add_full hx]
  · obtain ⟨q', hq, -⟩ := ht.step ha
    exact ⟨q', hq, h.step a ha hq⟩

/-- The window goes on in the first of four slots and has a hole in the fourth. -/
theorem Used.refines_fifo_wrapped :
    ∃ (q : SlotQueue 4) (F : Fifo), Used q F ∧ F.passed = 2 ∧
      F.window = [some ⟨.low, 88⟩, none, some ⟨.low, 176⟩] ∧
      q.toList.map (fun x => (x.1.val, x.2)) = [(2, ⟨.low, 88⟩), (0, ⟨.low, 176⟩)] := by
  have h := (((((((Used.start (n := 4)).step (.add ⟨.low, 0⟩) trivial rfl).step
    (.add ⟨.low, 44⟩) trivial rfl).step (.add ⟨.low, 88⟩) trivial rfl).step
    (.release 1) rfl rfl).step .pop trivial rfl).step (.add ⟨.low, 132⟩) trivial rfl).step
    (.add ⟨.low, 176⟩) trivial rfl
  have h' := h.step (.release 3) rfl rfl
  obtain ⟨-, -, -, -, -, -, -, hlist, -⟩ := h'.refines_fifo
  exact ⟨_, _, h', rfl, rfl, hlist.trans rfl⟩

end SlotQueue

end EtherBuffer
