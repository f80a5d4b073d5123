import EtherBuffer.Ingress.Dispatcher
import EtherBuffer.Proofs.Queue.Window
import Mathlib.Data.Fintype.Card

/-! The queues of the clients, which have no holes, as frames are taken only from the front. -/
namespace EtherBuffer.Ingress

variable {clients depth : ℕ}

/-- Those clients that have room await the frame. -/
def queuedTo (depth : ℕ) (Q : Fin clients → List Handle) (x : Handle) (is : List (Fin clients))
    (i : Fin clients) : List Handle :=
  if i ∈ is ∧ (Q i).length < depth then Q i ++ [x] else Q i

theorem mem_queuedTo {Q : Fin clients → List Handle} {x y : Handle} {is : List (Fin clients)}
    {i : Fin clients} : y ∈ queuedTo depth Q x is i ↔
      y ∈ Q i ∨ y = x ∧ i ∈ is ∧ (Q i).length < depth := by
  unfold queuedTo
  split_ifs with h
  · rw [List.mem_append, List.mem_singleton]
    simp [h]
  · simp [h]

/-- In how many queues a handle is. -/
def waiting (Q : Fin clients → List Handle) (x : Handle) : ℕ :=
  (Finset.univ.filter fun i => x ∈ Q i).card

theorem waiting_eq_zero_iff {Q : Fin clients → List Handle} {x : Handle} :
    waiting Q x = 0 ↔ ∀ i, x ∉ Q i := by
  rw [waiting, Finset.card_eq_zero, Finset.filter_eq_empty_iff]
  simp

theorem waiting_congr {Q Q' : Fin clients → List Handle} {x : Handle}
    (h : ∀ i, x ∈ Q' i ↔ x ∈ Q i) : waiting Q' x = waiting Q x := by
  unfold waiting
  congr 1
  exact Finset.filter_congr fun i _ => h i

theorem waiting_queuedTo (depth : ℕ) {Q : Fin clients → List Handle} {x : Handle}
    (hx : ∀ i, x ∉ Q i) {is : List (Fin clients)} (hnd : is.Nodup) :
    waiting (queuedTo depth Q x is) x = (is.filter fun i => (Q i).length < depth).length := by
  rw [waiting, ← List.toFinset_card_of_nodup (hnd.filter _)]
  congr 1
  ext i
  rw [Finset.mem_filter, mem_queuedTo, List.mem_toFinset, List.mem_filter]
  simp [hx i]

theorem waiting_tail {Q : Fin clients → List Handle} {x : Handle} {hs : List Handle}
    {i : Fin clients} (hQ : Q i = x :: hs) (hx : x ∉ hs) :
    waiting Q x = waiting (Function.update Q i hs) x + 1 := by
  have hi : i ∉ Finset.univ.filter fun j => x ∈ Function.update Q i hs j := by
    rw [Finset.mem_filter, Function.update_self]
    exact fun h => hx h.2
  rw [waiting, waiting, ← Finset.card_insert_of_notMem hi]
  congr 1
  ext j
  rw [Finset.mem_insert, Finset.mem_filter, Finset.mem_filter]
  by_cases hj : j = i
  · subst hj
    simp [hQ]
  · rw [Function.update_of_ne hj]
    simp [hj]

theorem Dispatcher.get_setClient (d : Dispatcher clients depth) (i j : Fin clients) (c : Client depth) :
    (d.setClient i c).clients.get j = if j = i then c else d.clients.get j := by
  change (d.clients.set i c i.isLt)[j.val] = _
  rw [Vector.getElem_set]
  by_cases hij : j = i
  · rw [if_pos (by rw [hij]), if_pos hij]
  · rw [if_neg fun he => hij (Fin.ext he.symm), if_neg hij]
    rfl

variable [Positive depth]

namespace Client

theorem deliver_snd (c : Client depth) (x : Handle) : (c.deliver x).2 = !c.queue.isFull := by
  unfold deliver SlotQueue.add
  cases c.queue.isFull <;> rfl

theorem deliver_of_full {c : Client depth} (h : c.queue.isFull = true) (x : Handle) :
    c.deliver x = ({ c with dropped := c.dropped + 1 }, false) := by
  unfold deliver SlotQueue.add
  rw [if_pos h]

/-- The client awaits the frames with these handles, in their order. -/
def Awaits (c : Client depth) (hs : List Handle) : Prop :=
  c.queue.Window (hs.map some)

namespace Awaits

variable {c : Client depth} {hs : List Handle} {x : Handle}

theorem empty : (Client.empty depth).Awaits [] :=
  SlotQueue.Window.empty

theorem length_le (h : c.Awaits hs) : hs.length ≤ depth := by
  simpa using h.lies.length_le

theorem isFull_eq (h : c.Awaits hs) : c.queue.isFull = !decide (hs.length < depth) := by
  have hle := h.length_le
  have hfull := SlotQueue.Window.isFull_eq h
  rw [List.length_map] at hfull
  rw [hfull, ← decide_not, decide_eq_decide]
  omega

theorem deliver_room (h : c.Awaits hs) (hroom : hs.length < depth) (x : Handle) :
    ∃ q, c.deliver x = ({ c with queue := q }, true) ∧
      ({ c with queue := q } : Client depth).Awaits (hs ++ [x]) := by
  obtain ⟨q, hq, hw⟩ := h.add (by simpa using hroom) x
  refine ⟨q, by rw [deliver, hq], ?_⟩
  unfold Awaits
  rwa [List.map_append]

theorem deliver_full (h : c.Awaits hs) (hfull : ¬ hs.length < depth) (x : Handle) :
    c.deliver x = ({ c with dropped := c.dropped + 1 }, false) := by
  rw [deliver_of_full]
  rw [h.isFull_eq, decide_eq_false hfull]
  rfl

theorem peek_eq (h : c.Awaits hs) : c.queue.peek = hs.head? :=
  SlotQueue.Window.peek_solid h

theorem collect (h : c.Awaits (x :: hs)) :
    ∃ q, c.queue.freeIndex c.queue.readIndex = .ok q ∧
      ({ c with queue := q } : Client depth).Awaits hs :=
  SlotQueue.Window.pop_solid h

theorem count_eq (h : c.Awaits hs) (x : Handle) :
    c.queue.slots.toList.count (some x) = hs.count x :=
  SlotQueue.Window.count_solid h x

theorem mem_iff (h : c.Awaits hs) (x : Handle) : some x ∈ c.queue.slots.toList ↔ x ∈ hs :=
  SlotQueue.Window.mem_solid h

end Awaits

end Client

namespace Dispatcher

variable {d : Dispatcher clients depth} {Q : Fin clients → List Handle}

def Awaiting (d : Dispatcher clients depth) (Q : Fin clients → List Handle) : Prop :=
  ∀ i, (d.clients.get i).Awaits (Q i)

def holders (d : Dispatcher clients depth) (h : Handle) : Finset (Fin clients) :=
  Finset.univ.filter fun i => some h ∈ (d.clients.get i).queue.slots.toList

theorem deliverAll_fst (d : Dispatcher clients depth) (x : Handle) (is : List (Fin clients)) :
    (d.deliverAll x is).1 = { d with clients := (d.deliverAll x is).1.clients } := by
  induction is generalizing d with
  | nil => rfl
  | cons i is ih => exact ih (d.setClient i ((d.clients.get i).deliver x).1)

section

variable (d : Dispatcher clients depth) (x : Handle) {is : List (Fin clients)} (hnd : is.Nodup)
include hnd

theorem get_deliverAll (j : Fin clients) :
    (d.deliverAll x is).1.clients.get j =
      if j ∈ is then ((d.clients.get j).deliver x).1 else d.clients.get j := by
  induction is generalizing d with
  | nil => rfl
  | cons i is ih =>
    obtain ⟨hi, hnd⟩ := List.nodup_cons.mp hnd
    refine (ih (d.setClient i ((d.clients.get i).deliver x).1) hnd).trans ?_
    rw [get_setClient]
    by_cases hj : j = i
    · subst hj
      rw [if_neg hi, if_pos rfl, if_pos List.mem_cons_self]
    · rw [if_neg hj]
      exact if_congr (by rw [List.mem_cons, or_iff_right hj]) rfl rfl

theorem deliverAll_snd :
    (d.deliverAll x is).2 = (is.filter fun i => !(d.clients.get i).queue.isFull).length := by
  induction is generalizing d with
  | nil => rfl
  | cons i is ih =>
    obtain ⟨hi, hnd⟩ := List.nodup_cons.mp hnd
    have hrest := ih (d.setClient i ((d.clients.get i).deliver x).1) hnd
    have hothers : (is.filter fun j =>
        !((d.setClient i ((d.clients.get i).deliver x).1).clients.get j).queue.isFull) =
          is.filter fun j => !(d.clients.get j).queue.isFull := by
      apply List.filter_congr
      intro j hj
      rw [get_setClient, if_neg (ne_of_mem_of_not_mem hj hi)]
    rw [hothers] at hrest
    have hqueued := (d.clients.get i).deliver_snd x
    unfold deliverAll
    simp only [hqueued, hrest, List.filter_cons]
    split_ifs <;> rfl

end

namespace Awaiting

theorem empty (policy : Link.Policy) :
    (Dispatcher.empty clients depth policy).Awaiting fun _ => [] := by
  intro i
  have hget : (Dispatcher.empty clients depth policy).clients.get i = Client.empty depth :=
    Vector.getElem_replicate _
  rw [hget]
  exact Client.Awaits.empty

theorem mem_holders (h : d.Awaiting Q) {x : Handle} {i : Fin clients} :
    i ∈ d.holders x ↔ x ∈ Q i := by
  rw [holders, Finset.mem_filter, (h i).mem_iff]
  exact and_iff_right (Finset.mem_univ i)

theorem card_holders (h : d.Awaiting Q) (x : Handle) : (d.holders x).card = waiting Q x := by
  rw [waiting]
  congr 1
  ext i
  rw [h.mem_holders, Finset.mem_filter]
  exact (and_iff_right (Finset.mem_univ i)).symm

theorem setClient (h : d.Awaiting Q) (i : Fin clients) {c : Client depth} {hs : List Handle}
    (hc : c.Awaits hs) : (d.setClient i c).Awaiting (Function.update Q i hs) := by
  intro j
  rw [get_setClient, Function.update_apply]
  split_ifs
  · exact hc
  · exact h j

theorem deliverAll (h : d.Awaiting Q) (x : Handle) {is : List (Fin clients)} (hnd : is.Nodup) :
    (d.deliverAll x is).1.Awaiting (queuedTo depth Q x is) ∧
      (d.deliverAll x is).2 = (is.filter fun i => (Q i).length < depth).length := by
  constructor
  · intro j
    rw [get_deliverAll d x hnd]
    unfold queuedTo
    by_cases hj : j ∈ is
    · by_cases hroom : (Q j).length < depth
      · obtain ⟨q, hq, hc⟩ := (h j).deliver_room hroom x
        rw [if_pos hj, if_pos ⟨hj, hroom⟩, hq]
        exact hc
      · rw [if_pos hj, if_neg fun hboth => hroom hboth.2, (h j).deliver_full hroom x]
        exact h j
    · rw [if_neg hj, if_neg fun hboth => hj hboth.1]
      exact h j
  · rw [deliverAll_snd d x hnd]
    refine congrArg List.length (List.filter_congr fun j _ => ?_)
    rw [(h j).isFull_eq, Bool.not_not]

end Awaiting

end Dispatcher

end EtherBuffer.Ingress
