import EtherBuffer.Proofs.Pool.Layout
import Mathlib.Data.List.Nodup
import Mathlib.Data.List.Pairwise

/-! Releasing many records. Marks may be made in any order, and it makes no difference when the read
position moves. -/
namespace EtherBuffer
open Record

namespace Span

theorem overwrite_setIfInBounds {memory : Array UInt8} {pos i : ℕ} {b : UInt8} {bytes : List UInt8}
    (h : i < pos ∨ pos + bytes.length ≤ i) :
    overwrite (memory.setIfInBounds i b) pos bytes =
      (overwrite memory pos bytes).setIfInBounds i b := by
  induction bytes generalizing memory pos with
  | nil => rfl
  | cons c cs ih =>
    rw [List.length_cons] at h
    rw [overwrite, overwrite, Array.setIfInBounds_comm _ _ (by omega), ih (by omega)]

theorem overwrite_comm {memory : Array UInt8} {i j : ℕ} {xs ys : List UInt8}
    (h : i + xs.length ≤ j ∨ j + ys.length ≤ i) :
    overwrite (overwrite memory i xs) j ys = overwrite (overwrite memory j ys) i xs := by
  induction xs generalizing memory i with
  | nil => rfl
  | cons x xs ih =>
    rw [List.length_cons] at h
    rw [overwrite, ih (by omega), overwrite_setIfInBounds (by omega), overwrite]

theorem overwrite_overwrite {memory : Array UInt8} {i : ℕ} {xs ys : List UInt8}
    (h : xs.length = ys.length) :
    overwrite (overwrite memory i xs) i ys = overwrite memory i ys := by
  induction xs generalizing memory i ys with
  | nil =>
    obtain rfl : ys = [] := List.eq_nil_of_length_eq_zero h.symm
    rfl
  | cons x xs ih =>
    obtain ⟨y, ys, rfl⟩ := List.exists_cons_of_length_eq_add_one h.symm
    rw [overwrite, overwrite, ← overwrite_setIfInBounds (by omega), Array.setIfInBounds_setIfInBounds,
      ih (Nat.succ.inj h), overwrite]

end Span

namespace Pool

theorem ext_fields {p q : Pool} (harena : p.arena = q.arena) (hprio : p.priority = q.priority)
    (hwrite : p.writeOffset = q.writeOffset) (hread : p.readOffset = q.readOffset)
    (hlive : p.live = q.live) (hcomm : p.committed = q.committed)
    (hdrop : p.dropped = q.dropped) : p = q := by
  cases p
  cases q
  subst harena hprio hwrite hread hlive hcomm hdrop
  rfl

def mark (p : Pool) (pos : ℕ) (s : State) : Pool :=
  { p with
    arena := Span.overwrite p.arena (pos + 4) (Word.toBytes s.toWord)
    roomy := by simpa using p.roomy }

/-- Let the ring begin at the record behind the oldest one. -/
def moveTo (p : Pool) (next : ℕ) : Pool :=
  { p with readOffset := next, live := p.live - 1 }

section
variable (p : Pool) (pos : ℕ) (s : State)

theorem arena_mark : (p.mark pos s).arena =
    Span.overwrite p.arena (pos + 4) (Word.toBytes s.toWord) := by
  rw [mark]

@[simp] theorem priority_mark : (p.mark pos s).priority = p.priority := by
  cases p
  rfl

@[simp] theorem writeOffset_mark : (p.mark pos s).writeOffset = p.writeOffset := by
  cases p
  rfl

@[simp] theorem readOffset_mark : (p.mark pos s).readOffset = p.readOffset := by
  cases p
  rfl

@[simp] theorem live_mark : (p.mark pos s).live = p.live := by
  cases p
  rfl

@[simp] theorem committed_mark : (p.mark pos s).committed = p.committed := by
  cases p
  rfl

@[simp] theorem dropped_mark : (p.mark pos s).dropped = p.dropped := by
  cases p
  rfl

@[simp] theorem capacity_mark : (p.mark pos s).capacity = p.capacity := by
  rw [capacity, arena_mark, Span.size_overwrite]
  rfl

theorem mark_moveTo (next : ℕ) : (p.moveTo next).mark pos s = (p.mark pos s).moveTo next := rfl

theorem setState_eq {p : Pool} {pos : ℕ} (h : pos + linkSize ≤ p.capacity) :
    p.setState pos s = .ok (p.mark pos s) := by
  have hc := p.capacity_le_size
  have h8 : linkSize = 8 := rfl
  unfold setState storeWord store
  rw [if_pos (by rw [Word.length_toBytes]; omega)]
  rfl

end

attribute [irreducible] mark

def markAll (p : Pool) (handles : List Handle) : Pool :=
  handles.foldl (fun q h => q.mark h.position .freed) p

/-- Move the read position past all records at the front that are marked as released. -/
def settle (p : Pool) : Except Fault Pool :=
  p.dropFreed p.live

def freeAll (p : Pool) : List Handle → Except Fault Pool
  | [] => .ok p
  | h :: hs => do (← p.free h).freeAll hs

def pass (p : Pool) (next : ℕ) : Pool :=
  (p.mark p.readOffset .empty).moveTo next

/-- The state words of records at the two positions do not meet. -/
def Apart (a b : ℕ) : Prop :=
  a + 4 ≤ b ∨ b + 4 ≤ a

theorem mark_comm (p : Pool) {a b : ℕ} (h : Apart a b) (s t : State) :
    (p.mark a s).mark b t = (p.mark b t).mark a s := by
  have hs : (Word.toBytes s.toWord).length = 4 := rfl
  have ht : (Word.toBytes t.toWord).length = 4 := rfl
  unfold Apart at h
  refine ext_fields ?_ (by simp) (by simp) (by simp) (by simp) (by simp) (by simp)
  simp only [arena_mark]
  exact Span.overwrite_comm (by omega)

theorem mark_mark (p : Pool) (a : ℕ) (s t : State) : (p.mark a s).mark a t = p.mark a t := by
  refine ext_fields ?_ (by simp) (by simp) (by simp) (by simp) (by simp) (by simp)
  simp only [arena_mark]
  exact Span.overwrite_overwrite rfl

theorem pass_mark_self (p : Pool) (next : ℕ) (s : State) :
    (p.mark p.readOffset s).pass next = p.pass next := by
  rw [pass, pass, readOffset_mark, mark_mark]

theorem pass_mark (p : Pool) {pos : ℕ} (h : Apart pos p.readOffset) (next : ℕ) (s : State) :
    (p.mark pos s).pass next = (p.pass next).mark pos s := by
  rw [pass, pass, readOffset_mark, p.mark_comm h, mark_moveTo]

theorem pass_markAll (p : Pool) {handles : List Handle}
    (h : ∀ a ∈ handles, Apart a.position p.readOffset) (next : ℕ) :
    (p.markAll handles).pass next = (p.pass next).markAll handles := by
  induction handles generalizing p with
  | nil => rfl
  | cons a as ih =>
    have ha := p.pass_mark (h a List.mem_cons_self) next .freed
    have has := ih (p.mark a.position .freed) fun b hb => by
      rw [readOffset_mark]
      exact h b (List.mem_cons_of_mem a hb)
    rw [ha] at has
    exact has

@[simp] theorem capacity_markAll (p : Pool) (handles : List Handle) :
    (p.markAll handles).capacity = p.capacity := by
  induction handles generalizing p with
  | nil => rfl
  | cons a as ih => exact (ih _).trans (p.capacity_mark a.position .freed)

theorem writeOffset_markAll (p : Pool) (handles : List Handle) :
    (p.markAll handles).writeOffset = p.writeOffset := by
  induction handles generalizing p with
  | nil => rfl
  | cons a as ih => exact (ih _).trans (p.writeOffset_mark a.position .freed)

theorem markAll_perm (p : Pool) {handles order : List Handle} (h : order.Perm handles)
    (ha : handles.Pairwise fun a b => Apart a.position b.position) :
    p.markAll order = p.markAll handles := by
  refine (h.symm.foldl_eq' (fun a ha' b hb q => ?_) p).symm
  by_cases hab : a = b
  · rw [hab]
  · have hsymm : Std.Symm fun a b : Handle => Apart a.position b.position := ⟨fun _ _ => Or.symm⟩
    exact q.mark_comm (ha.forall ha' hb hab) .freed .freed

/-- Handles of different records, none of which was released. -/
structure Outstanding (rs : List Receipt) (handles : List Handle) : Prop where
  nodup : handles.Nodup
  live : ∀ h ∈ handles, ∃ r ∈ rs, r.handle = h ∧ r.isReleased = false

end Pool

namespace Receipt

def releaseIn (handles : List Handle) (r : Receipt) : Receipt :=
  if r.handle ∈ handles then r.release else r

theorem isReleased_release (r : Receipt) : r.release.isReleased = true := by
  simp [release, isReleased]

theorem isReleased_releaseIn (handles : List Handle) (r : Receipt) :
    (r.releaseIn handles).isReleased = (r.isReleased || decide (r.handle ∈ handles)) := by
  unfold releaseIn
  split_ifs with h
  · simp [isReleased_release, h]
  · simp [h]

theorem isReleased_of_head? (rs : List Receipt) :
    ∀ t ∈ (rs.dropWhile (·.isReleased)).head?, t.isReleased = false := by
  intro t ht
  have hnot := List.head?_dropWhile_not (·.isReleased) rs
  rw [Option.mem_def.mp ht] at hnot
  simpa using hnot

theorem releaseIn_handle (handles : List Handle) (r : Receipt) :
    (r.releaseIn handles).handle = r.handle := by
  unfold releaseIn
  split_ifs <;> rfl

theorem releaseIn_of_notMem {handles : List Handle} {r : Receipt} (h : r.handle ∉ handles) :
    r.releaseIn handles = r :=
  if_neg h

theorem releaseIn_after (handles : List Handle) (r : Receipt) (c v : ℕ) :
    (r.releaseIn handles).after c v = r.after c v := by
  unfold releaseIn
  split_ifs <;> rfl

/-- Releases of different records may be noted together. -/
theorem releaseIn_cons {a : Handle} {handles : List Handle} (h : a ∉ handles) (r : Receipt) :
    (r.releaseIn [a]).releaseIn handles = r.releaseIn (a :: handles) := by
  by_cases ha : r.handle = a
  · subst ha
    rw [releaseIn_of_notMem (by rwa [releaseIn_handle])]
    simp [releaseIn]
  · have hsame : r.releaseIn [a] = r := releaseIn_of_notMem (by simpa using ha)
    rw [hsame]
    simp [releaseIn, ha]

end Receipt

namespace Pool

theorem Outstanding.tail {rs : List Receipt} {a : Handle} {handles : List Handle}
    (h : Outstanding rs (a :: handles)) : Outstanding (rs.map (·.releaseIn [a])) handles := by
  obtain ⟨ha, hn⟩ := List.nodup_cons.mp h.nodup
  refine ⟨hn, fun b hb => ?_⟩
  obtain ⟨r, hr, rfl, hlive⟩ := h.live b (List.mem_cons_of_mem a hb)
  have hne : r.handle ∉ [a] := by
    rw [List.mem_singleton]
    rintro rfl
    exact ha hb
  refine ⟨r, List.mem_map.mpr ⟨r, hr, Receipt.releaseIn_of_notMem hne⟩, rfl, hlive⟩

theorem Outstanding.of_cons {r : Receipt} {rs : List Receipt} {handles : List Handle}
    (h : Outstanding (r :: rs) handles) (hr : r.isReleased = true) : Outstanding rs handles := by
  refine ⟨h.nodup, fun b hb => ?_⟩
  obtain ⟨x, hx, rfl, hlive⟩ := h.live b hb
  obtain rfl | hx := List.mem_cons.mp hx
  · rw [hr] at hlive
    cases hlive
  · exact ⟨x, hx, rfl, hlive⟩

theorem Outstanding.dropWhile {rs : List Receipt} {handles : List Handle}
    (h : Outstanding rs handles) : Outstanding (rs.dropWhile (·.isReleased)) handles := by
  induction rs with
  | nil => exact h
  | cons r rs ih =>
    rw [List.dropWhile_cons]
    split_ifs with hr
    · exact ih (h.of_cons hr)
    · exact h

namespace Holds

variable {p q : Pool} {base : ℕ} {rs as bs : List Receipt} {r : Receipt} {handles : List Handle}

theorem apart (h : p.Holds base rs) :
    rs.Pairwise fun a b => Apart a.handle.position b.handle.position := by
  refine List.Pairwise.imp_of_mem (fun {a b} ha hb hab => ?_) h.pairwise_not_covers
  have hpos := p.capacity_pos
  have hcap := p.minUsage_le_capacity
  have hlast : p.lastStart = p.capacity - minUsage := rfl
  have hpa := h.position_le ha
  have hpb := h.position_le hb
  have hsa : 44 + a.payload.length ≤ a.size := le_extent _
  have hsb : 44 + b.payload.length ≤ b.size := le_extent _
  have h84 : minUsage = 84 := rfl
  by_contra hmeet
  unfold Apart at hmeet
  rcases Nat.le_total a.handle.position b.handle.position with hle | hle
  · refine hab b.handle.position ⟨b.handle.position - a.handle.position, by omega, ?_⟩
      ⟨0, by omega, ?_⟩
    · rw [Nat.add_sub_cancel' hle, Nat.mod_eq_of_lt (by omega)]
    · rw [Nat.add_zero, Nat.mod_eq_of_lt (by omega)]
  · refine hab a.handle.position ⟨0, by omega, ?_⟩
      ⟨a.handle.position - b.handle.position, by omega, ?_⟩
    · rw [Nat.add_zero, Nat.mod_eq_of_lt (by omega)]
    · rw [Nat.add_sub_cancel' hle, Nat.mod_eq_of_lt (by omega)]

theorem apart_of_ne (h : p.Holds base rs) {a b : Receipt} (ha : a ∈ rs) (hb : b ∈ rs)
    (hne : a.handle ≠ b.handle) : Apart a.handle.position b.handle.position := by
  have hsymm : Std.Symm fun a b : Receipt => Apart a.handle.position b.handle.position :=
    ⟨fun _ _ => Or.symm⟩
  exact h.apart.forall ha hb fun he => hne (congrArg Receipt.handle he)

theorem handles_nodup (h : p.Holds base rs) : (rs.map (·.handle)).Nodup := by
  apply List.Nodup.of_map Handle.position
  rw [List.map_map]
  exact h.positions_nodup

theorem releaseIn_eq (h : p.Holds base (as ++ r :: bs)) :
    (as ++ r :: bs).map (·.releaseIn [r.handle]) = as ++ r.release :: bs := by
  have hn := h.handles_nodup
  rw [List.map_append, List.map_cons, List.nodup_append, List.nodup_cons] at hn
  obtain ⟨-, ⟨hb, -⟩, ha⟩ := hn
  have hsame (l : List Receipt) (hl : ∀ x ∈ l, x.handle ≠ r.handle) :
      l.map (·.releaseIn [r.handle]) = l := by
    refine (List.map_congr_left fun x hx => ?_).trans (List.map_id l)
    exact Receipt.releaseIn_of_notMem (by simpa using hl x hx)
  rw [List.map_append, List.map_cons, hsame as, hsame bs]
  · simp [Receipt.releaseIn]
  · exact fun x hx he => hb (he ▸ List.mem_map_of_mem hx)
  · exact fun x hx => ha _ (List.mem_map_of_mem hx) _ List.mem_cons_self

theorem mark (h : p.Holds base (as ++ r :: bs)) :
    (p.mark r.handle.position .freed).Holds base (as ++ r.release :: bs) := by
  obtain ⟨hbase, -, hstored, hstop⟩ := h.at_record
  have hpos := h.position_eq
  have hfit := h.fields_fit
  have hend := r.le_after p.capacity (Receipt.stop p.capacity base as)
  have hle := h.stop_le
  have h44 : payloadOffset = 44 := rfl
  have hs8 : linkSize = 8 ∧ Header.size = 36 := ⟨rfl, rfl⟩
  obtain ⟨q, hq, hw⟩ := setState_spec hfit .freed
  have hc := hw.capacity_eq
  have l : (Word.toBytes State.freed.toWord).length = 4 := rfl
  rw [← hpos, setState_eq _ (by omega)] at hq
  obtain rfl := Except.ok.inj hq
  refine h.update hw (by omega) (by omega) ?_ rfl
  generalize Receipt.stop p.capacity base as = v at *
  generalize p.mark r.handle.position .freed = q at *
  constructor
  · rw [hw.priority_eq, hc]
    exact hstored.handle
  · rw [hw.bytes_kept (by omega), hc]
    exact hstored.link
  · rw [hw.bytes_written l, Word.ofBytes_toBytes, State.ofWord_toWord, Receipt.state,
      r.isReleased_release, if_pos rfl]
  · rw [hw.bytes_kept (by omega)]
    exact hstored.header
  · change q.bytes (v + payloadOffset) r.payload.length = r.payload
    rw [hw.bytes_kept (by omega), hstored.payload]

theorem markAll (h : p.Holds base rs) (ho : Outstanding rs handles) :
    (p.markAll handles).Holds base (rs.map (·.releaseIn handles)) := by
  induction handles generalizing p rs with
  | nil =>
    have hsame : rs.map (·.releaseIn []) = rs := by simp [Receipt.releaseIn]
    rw [hsame]
    exact h
  | cons a handles ih =>
    obtain ⟨r, hr, rfl, -⟩ := ho.live a List.mem_cons_self
    have hn := (List.nodup_cons.mp ho.nodup).1
    obtain ⟨as, bs, rfl⟩ := List.mem_iff_append.mp hr
    have hmark := h.mark
    rw [← h.releaseIn_eq] at hmark
    have hall := ih hmark ho.tail
    rw [List.map_map] at hall
    refine (List.map_congr_left fun x _ => ?_) ▸ hall
    exact Receipt.releaseIn_cons hn x

theorem head_position (h : p.Holds base (r :: rs)) : r.handle.position = p.readOffset := by
  have h₀ : p.Holds base ([] ++ r :: rs) := h
  rw [h₀.position_eq, h.readOffset_eq, Receipt.stop_nil]

theorem stateAt_readOffset (h : p.Holds base (r :: rs)) : p.stateAt p.readOffset = .ok r.state := by
  have h₀ : p.Holds base ([] ++ r :: rs) := h
  rw [← h.head_position, h₀.stateAt_handle]

theorem dropOldest_eq (h : p.Holds base (r :: rs)) :
    p.dropOldest = .ok (p.pass (r.after p.capacity base % p.capacity)) := by
  have h₀ : p.Holds base ([] ++ r :: rs) := h
  have hlink := h₀.linkAt_handle
  have hfit := h₀.fields_fit
  have hnext := Nat.mod_lt (r.after p.capacity base) p.capacity_pos
  have hlive := h.live_eq
  have h44 : payloadOffset = 44 := rfl
  have h8 : linkSize = 8 := rfl
  rw [h.head_position, Receipt.stop_nil] at hlink
  rw [Receipt.stop_nil, ← h.readOffset_eq] at hfit
  rw [List.length_cons] at hlive
  unfold dropOldest
  rw [hlink, ok_bind, require_of_true hnext, ok_bind, setState_eq _ (by omega), ok_bind,
    require_of_true (by rw [live_mark]; omega)]
  rfl

theorem pass_holds (h : p.Holds base (r :: rs)) :
    (p.pass (r.after p.capacity base % p.capacity)).Holds (r.after p.capacity base) rs := by
  obtain ⟨q, hq, hq', -⟩ := h.dropOldest_spec
  rw [h.dropOldest_eq] at hq
  rwa [Except.ok.inj hq]

theorem settle_eq_self (h : p.Holds base rs) (hfirst : ∀ t ∈ rs.head?, t.isReleased = false) :
    p.settle = .ok p := by
  unfold settle
  rw [h.live_eq]
  cases rs with
  | nil => rfl
  | cons r rs =>
    have hstate := h.stateAt_readOffset
    rw [Receipt.state, hfirst r rfl] at hstate
    rw [List.length_cons, dropFreed, hstate, ok_bind]
    rfl

theorem settle_cons (h : p.Holds base (r :: rs)) (hr : r.isReleased = true) :
    p.settle = (p.pass (r.after p.capacity base % p.capacity)).settle := by
  have hstate := h.stateAt_readOffset
  rw [Receipt.state, hr, if_pos rfl] at hstate
  have hlive := h.pass_holds.live_eq
  unfold settle
  rw [h.live_eq, List.length_cons, dropFreed, hstate, ok_bind, if_pos rfl, h.dropOldest_eq, ok_bind,
    hlive]

/-- To release a record is to mark it and to settle. -/
theorem free_eq (h : p.Holds base (as ++ r :: bs)) (hr : r.isReleased = false)
    (hfirst : ∀ t ∈ as.head?, t.isReleased = false) :
    p.free r.handle = (p.mark r.handle.position .freed).settle := by
  have hmark := h.mark
  have hstate := h.stateAt_handle
  have hprio : r.handle.priority = p.priority := by rw [h.at_record.2.2.1.handle]; rfl
  have hpos := h.position_eq
  have hfit := h.fields_fit
  have h44 : payloadOffset = 44 := rfl
  have h8 : linkSize = 8 := rfl
  rw [Receipt.state, hr, if_neg (by simp)] at hstate
  rw [free, require_of_true hprio, ok_bind, hstate, ok_bind, require_of_true rfl, ok_bind]
  cases as with
  | nil =>
    rw [List.nil_append] at h hmark
    have hfront := h.head_position
    rw [if_neg (not_not_intro hfront), h.dropOldest_eq, ok_bind,
      hmark.settle_cons r.isReleased_release, hfront, pass_mark_self, capacity_mark]
    rfl
  | cons t as =>
    obtain ⟨hbase, -⟩ := h.at_record
    have hne : r.handle.position ≠ p.readOffset := by
      have hpt : t.handle.position = p.readOffset := h.head_position
      have hn := h.positions_nodup
      rw [List.cons_append, List.map_cons, List.nodup_cons] at hn
      intro he
      exact hn.1 (List.mem_map.mpr ⟨r, by simp, he.trans hpt.symm⟩)
    rw [if_pos hne, setState_eq _ (by omega), hmark.settle_eq_self (fun x hx => hfirst x hx)]

theorem settle_markAll (h : p.Holds base rs) (ho : Outstanding rs handles) (hq : p.settle = .ok q) :
    (q.markAll handles).settle = (p.markAll handles).settle := by
  -- Induction on the records that `q` has passed, none of which is marked again.
  induction rs generalizing p base with
  | nil =>
    rw [h.settle_eq_self (by simp)] at hq
    rw [Except.ok.inj hq]
  | cons t rs ih =>
    cases ht : t.isReleased with
    | false =>
      rw [h.settle_eq_self (by simpa using ht)] at hq
      rw [Except.ok.inj hq]
    | true =>
      have hnext := ih h.pass_holds (ho.of_cons ht) (h.settle_cons ht ▸ hq)
      have hall := h.markAll ho
      rw [List.map_cons] at hall
      have hapart : ∀ a ∈ handles, Apart a.position p.readOffset := by
        intro a ha
        obtain ⟨r, hr, rfl, hlive⟩ := (ho.of_cons ht).live a ha
        rw [← h.head_position]
        exact ((List.pairwise_cons.mp h.apart).1 r hr).symm
      have hreleased : (t.releaseIn handles).isReleased = true := by
        rw [Receipt.isReleased_releaseIn, ht, Bool.true_or]
      rw [hall.settle_cons hreleased, Receipt.releaseIn_after, capacity_markAll,
        p.pass_markAll hapart, hnext]

theorem freeAll_eq (h : p.Holds base rs) (hfirst : ∀ t ∈ rs.head?, t.isReleased = false)
    (ho : Outstanding rs handles) : p.freeAll handles = (p.markAll handles).settle := by
  induction handles generalizing p base rs with
  | nil => exact (h.settle_eq_self hfirst).symm
  | cons a handles ih =>
    obtain ⟨r, hr, rfl, hlive⟩ := ho.live a List.mem_cons_self
    have ho' := ho.tail.dropWhile
    obtain ⟨as, bs, rfl⟩ := List.mem_iff_append.mp hr
    have hmark := h.mark
    obtain ⟨q, base', hq, hq', -⟩ := hmark.dropFreed_spec
    rw [h.releaseIn_eq] at ho'
    have hsettle : (p.mark r.handle.position .freed).settle = .ok q := by
      rw [settle, hmark.live_eq, hq]
    have hstart : ∀ t ∈ as.head?, t.isReleased = false := by
      intro t ht
      apply hfirst
      rw [List.head?_append, ht]
      rfl
    rw [freeAll, h.free_eq hlive hstart, hsettle, ok_bind,
      ih hq' (Receipt.isReleased_of_head? _) ho']
    refine hmark.settle_markAll ?_ hsettle
    rw [← h.releaseIn_eq]
    exact ho.tail

theorem freeAll_spec (h : p.Holds base rs) (hfirst : ∀ t ∈ rs.head?, t.isReleased = false)
    (ho : Outstanding rs handles) :
    ∃ q base', (∀ order : List Handle, order.Perm handles → p.freeAll order = .ok q) ∧
      q.Holds base' ((rs.map (·.releaseIn handles)).dropWhile (·.isReleased)) ∧
      q.writeOffset = p.writeOffset := by
  have hall := h.markAll ho
  have hapart : handles.Pairwise fun a b => Apart a.position b.position := by
    refine List.Pairwise.imp_of_mem (fun {a b} ha hb hne => ?_) ho.nodup
    obtain ⟨r, hr, rfl, -⟩ := ho.live a ha
    obtain ⟨t, ht, rfl, -⟩ := ho.live b hb
    exact h.apart_of_ne hr ht hne
  obtain ⟨q, base', hq, hq', -, -, hst⟩ := hall.dropFreed_spec
  refine ⟨q, base', fun order hp => ?_, hq', hst.writeOffset_eq.trans (p.writeOffset_markAll _)⟩
  have ho' : Outstanding rs order :=
    ⟨hp.nodup_iff.mpr ho.nodup, fun a ha => ho.live a (hp.mem_iff.mp ha)⟩
  rw [h.freeAll_eq hfirst ho', p.markAll_perm hp hapart, settle, hall.live_eq, hq]

theorem oldest_eq (h : p.Holds base rs) : p.oldest = rs.head?.map (·.handle) := by
  unfold oldest
  cases rs with
  | nil => exact if_pos h.live_eq
  | cons r rs =>
    have h₀ : p.Holds base ([] ++ r :: rs) := h
    have hstored := h₀.at_record.2.2.1
    rw [if_neg (by simp [h.live_eq]), h.readOffset_eq, List.head?_cons, Option.map_some,
      hstored.handle]
    rfl

theorem readOffset_eq_head (h : p.Holds base rs) :
    p.readOffset = (rs.head?.map (·.handle.position)).getD p.writeOffset := by
  cases rs with
  | nil => exact h.readOffset_eq.trans h.writeOffset_eq.symm
  | cons r rs =>
    exact h.head_position.symm

end Holds

end Pool

namespace Session

variable {s : Session}

/-- The records that still take space when those of the handles are released as well. -/
def remaining (s : Session) (handles : List Handle) : List Receipt :=
  s.ring.dropWhile fun r => r.isReleased || decide (r.handle ∈ handles)

theorem releaseIn_remaining (s : Session) (handles : List Handle) :
    (s.ring.map (·.releaseIn handles)).dropWhile (·.isReleased) =
      (s.remaining handles).map (·.releaseIn handles) := by
  rw [List.dropWhile_map, remaining]
  congr 2
  funext r
  exact r.isReleased_releaseIn handles

theorem Sound.outstanding {base : ℕ} {gone held : List Receipt} (h : s.Sound base gone held)
    {handles : List Handle} (hn : handles.Nodup)
    (hlive : ∀ a ∈ handles, ∃ r ∈ s.receipts, r.handle = a ∧ r.releases = 0) :
    Pool.Outstanding held handles := by
  refine ⟨hn, fun a ha => ?_⟩
  obtain ⟨r, hr, he, hz⟩ := hlive a ha
  have hnot : r.isReleased = false := by simp [Receipt.isReleased, hz]
  rw [h.receipts_eq] at hr
  rcases List.mem_append.mp hr with hr | hr
  · rw [h.gone_released r hr] at hnot
    cases hnot
  · exact ⟨r, hr, he, hnot⟩

theorem head?_remaining {handles : List Handle} {r : Receipt}
    (hr : (s.remaining handles).head? = some r) : r.isReleased = false ∧ r.handle ∉ handles := by
  have hnot := List.head?_dropWhile_not (fun r : Receipt => r.isReleased || decide (r.handle ∈ handles))
    s.ring
  rw [← remaining, hr] at hnot
  simpa using hnot

theorem remaining_eq_nil {handles : List Handle}
    (h : ∀ r ∈ s.receipts, r.releases = 0 → r.handle ∈ handles) : s.remaining handles = [] := by
  refine List.dropWhile_eq_nil_iff.mpr fun r hr => ?_
  have hmem := h r (List.mem_of_mem_drop hr)
  by_cases hz : r.releases = 0
  · simp [hmem hz]
  · simp [Receipt.isReleased, hz]

/-- Records that are in use may be released in any order. The pool is the same, and goes on at the
oldest record in use. -/
theorem reached_frees_unordered (arena : Array UInt8) (priority : Priority) (p : Pool)
    (hp : Pool.create arena priority = .ok p) (hmax : arena.size < 2 ^ 32)
    (hs : Reached Allows ⟨p, none, []⟩ s) (handles : List Handle) (hn : handles.Nodup)
    (hlive : ∀ a ∈ handles, ∃ r ∈ s.receipts, r.handle = a ∧ r.releases = 0) :
    ∃ q, (∀ order : List Handle, order.Perm handles → s.pool.freeAll order = .ok q) ∧
      q.writeOffset = s.pool.writeOffset ∧
      q.readOffset = ((s.remaining handles).head?.map (·.handle.position)).getD q.writeOffset ∧
      q.live = (s.remaining handles).length ∧
      q.oldest = (s.remaining handles).head?.map (·.handle) ∧
      (∀ a ∈ q.oldest, a ∉ handles ∧ q.stateAt a.position = .ok .live) ∧
      ((∀ r ∈ s.receipts, r.releases = 0 → r.handle ∈ handles) →
        q.live = 0 ∧ q.freeSpace = q.capacity ∧
        q.reserve = .region ⟨q.writeOffset, 0, q.capacity - payloadOffset, false⟩) := by
  obtain ⟨base, gone, held, h⟩ : s.Kept :=
    hs.kept (fun _ _ h => h) ⟨_, _, _, Sound.create hp hmax⟩
  have ho := h.outstanding hn hlive
  obtain ⟨q, base', hfree, hq, hwrite⟩ := h.holds.freeAll_spec h.oldest_live ho
  rw [← h.ring_eq, s.releaseIn_remaining] at hq
  -- A release leaves the handles as they are, by which the oldest record is told.
  have hhead {α : Type} (f : Handle → α) :
      ((s.remaining handles).map (·.releaseIn handles)).head?.map (fun r => f r.handle) =
        (s.remaining handles).head?.map (fun r => f r.handle) := by
    rw [List.head?_map, Option.map_map]
    congr 1
    funext r
    exact congrArg f (r.releaseIn_handle handles)
  have hread := hq.readOffset_eq_head
  have holdest := hq.oldest_eq
  have hcount := hq.live_eq
  rw [hhead Handle.position] at hread
  rw [hhead fun a => a] at holdest
  rw [List.length_map] at hcount
  refine ⟨q, hfree, hwrite, hread, hcount, holdest, fun a ha => ?_, fun hall => ?_⟩
  · rw [holdest] at ha
    obtain ⟨r, hr, rfl⟩ := Option.map_eq_some_iff.mp ha
    obtain ⟨rs, hrest⟩ := List.head?_eq_some_iff.mp hr
    obtain ⟨hnot, hmem⟩ := head?_remaining hr
    have hkept : r.releaseIn handles = r := Receipt.releaseIn_of_notMem hmem
    rw [hrest, List.map_cons, hkept] at hq
    have hstate := hq.stateAt_readOffset
    rw [← hq.head_position, Receipt.state, hnot] at hstate
    exact ⟨hmem, hstate⟩
  · have hnone := s.remaining_eq_nil hall
    rw [hnone] at hcount
    have hspace : q.freeSpace = q.capacity := if_pos hcount
    refine ⟨hcount, hspace, ?_⟩
    unfold Pool.reserve
    rw [hspace, if_neg (Nat.not_lt.mpr q.minUsage_le_capacity)]

/-- Either order of releasing two of three records leaves the same empty pool. -/
theorem reached_frees_unordered_wrapped :
    ∃ p s q, Pool.create (Array.replicate 216 0) .low = .ok p ∧
      Reached Allows ⟨p, none, []⟩ s ∧ s.receipts.map (·.releases) = [1, 1, 0, 1, 0] ∧
      s.pool.freeAll [⟨.low, 88⟩, ⟨.low, 0⟩] = .ok q ∧
      s.pool.freeAll [⟨.low, 0⟩, ⟨.low, 88⟩] = .ok q ∧ q.live = 0 ∧ q.readOffset = 44 := by
  have hroom : minUsage ≤ wholeWords (Array.replicate 216 (0 : UInt8)).size := by decide +kernel
  obtain ⟨p, hp⟩ : ∃ p, Pool.create (Array.replicate 216 0) .low = .ok p := ⟨_, dif_pos hroom⟩
  let requests : List Request := [.reserve, .commit {}, .reserve, .commit {}, .reserve, .commit {},
    .reserve, .commit {}, .free 0, .free 1, .reserve, .commit {}, .free 3]
  have hserve : ((Pool.create (Array.replicate 216 0) .low).toOption.bind fun p =>
      ((Session.mk p none []).serve Allows requests).map fun s =>
        (s.pool.writeOffset, s.receipts.map fun r => (r.handle, r.releases))) =
      some (44, [(⟨.low, 0⟩, 1), (⟨.low, 44⟩, 1), (⟨.low, 88⟩, 0), (⟨.low, 132⟩, 1),
        (⟨.low, 0⟩, 0)]) := by
    decide +kernel
  rw [hp] at hserve
  obtain ⟨s, hs, he⟩ := Option.map_eq_some_iff.mp hserve
  obtain ⟨hwrite, hreceipts⟩ := Prod.mk.inj he
  have hreach := reached_of_serve hs
  have hlive : ∀ a ∈ [Handle.mk .low 88, ⟨.low, 0⟩],
      ∃ r ∈ s.receipts, r.handle = a ∧ r.releases = 0 := by
    intro a ha
    have hm : (a, 0) ∈ s.receipts.map fun r => (r.handle, r.releases) := by
      rw [hreceipts]
      revert a
      decide
    obtain ⟨r, hr, he⟩ := List.mem_map.mp hm
    exact ⟨r, hr, Prod.mk.inj he⟩
  have hall : ∀ r ∈ s.receipts, r.releases = 0 → r.handle ∈ [Handle.mk .low 88, ⟨.low, 0⟩] := by
    intro r hr hz
    have hm := List.mem_map_of_mem (f := fun r : Receipt => (r.handle, r.releases)) hr
    rw [hreceipts, hz] at hm
    simpa using hm
  obtain ⟨q, hfree, hq, hread, -, -, -, hempty⟩ := reached_frees_unordered _ .low p hp
    (by decide +kernel) hreach _ (by decide) hlive
  refine ⟨p, s, q, hp, hreach, ?_, hfree _ (.refl _), hfree _ (.swap _ _ _), (hempty hall).1, ?_⟩
  · have hm := congrArg (List.map Prod.snd) hreceipts
    rwa [List.map_map] at hm
  · rw [hread, s.remaining_eq_nil hall, hq, hwrite]
    rfl

end Session

end EtherBuffer
