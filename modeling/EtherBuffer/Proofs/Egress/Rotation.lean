import EtherBuffer.Proofs.Egress.Handling
import EtherBuffer.Proofs.Egress.Rate
import EtherBuffer.Proofs.Run
import Mathlib.Data.List.Chain
import Mathlib.Data.List.Perm.Subperm

/-! Clients take turns. A client with a frame comes closer with each turn, and is served before any
other has had two. -/
namespace EtherBuffer.Egress

open Link

/-- How many turns the client `d` comes after the client `c`. -/
def turnsBetween (clients c d : ℕ) : ℕ :=
  (clients - c + d) % clients

section TurnsBetween

variable {clients c d u j k : ℕ}

theorem add_turnsBetween (hc : c < clients) (hd : d < clients) :
    (c + turnsBetween clients c d) % clients = d := by
  rw [turnsBetween, Nat.add_mod_mod, ← Nat.add_assoc, Nat.add_sub_cancel' hc.le, Nat.add_mod_left,
    Nat.mod_eq_of_lt hd]

theorem turnsBetween_eq (hc : c < clients) (hj : j < clients) (h : (c + j) % clients = d) :
    turnsBetween clients c d = j := by
  rw [turnsBetween, ← h, Nat.add_mod_mod, ← Nat.add_assoc, Nat.sub_add_cancel hc.le,
    Nat.add_mod_left, Nat.mod_eq_of_lt hj]

theorem turnsBetween_lt (hd : d < clients) : turnsBetween clients c d < clients :=
  Nat.mod_lt _ (by omega)

theorem turnsBetween_pos (hc : c < clients) (hd : d < clients) (hne : c ≠ d) :
    0 < turnsBetween clients c d := by
  rw [Nat.pos_iff_ne_zero]
  intro hzero
  have h := add_turnsBetween hc hd
  rw [hzero, Nat.add_zero, Nat.mod_eq_of_lt hc] at h
  exact hne h

end TurnsBetween

namespace Scheduler

variable {clients depth stamps : ℕ} {s s' : Scheduler clients depth stamps} {sel : Selection}
  {p : Priority} {d : Fin clients}

/-- The client has a frame in the class. -/
def Waits (s : Scheduler clients depth stamps) (p : Priority) (i : Fin clients) : Prop :=
  ((s.queues.get p).get i).isEmpty = false

instance (s : Scheduler clients depth stamps) (p : Priority) (i : Fin clients) :
    Decidable (s.Waits p i) :=
  inferInstanceAs (Decidable (_ = false))

theorem getElem_rotation (clients turn : ℕ) {j : ℕ} (hj : j < clients) :
    (rotation clients turn)[j]? = some ⟨(turn + j) % clients, Nat.mod_lt _ (by omega)⟩ := by
  unfold rotation
  rw [List.getElem?_ofFn, dif_pos hj]

theorem exists_place (turn : ℕ) (d : Fin clients) :
    ∃ j < clients, (turn + j) % clients = d := by
  have hpos := d.pos
  have hturn := Nat.mod_lt turn hpos
  refine ⟨turnsBetween clients (turn % clients) d, turnsBetween_lt d.isLt, ?_⟩
  rw [← Nat.mod_add_mod]
  exact add_turnsBetween hturn d.isLt

/-- Of the clients that have a frame the first one in turn is selected. -/
theorem peek_first (hp : s.peek p = some sel) (hd : s.Waits p d) :
    ∃ k j, k ≤ j ∧ j < clients ∧ sel.client = (s.turn.get p + k) % clients ∧
      (s.turn.get p + j) % clients = d := by
  obtain ⟨before, i, after, hsplit, hi, hnone⟩ := List.findSome?_eq_some_iff.mp hp
  obtain ⟨h, -, rfl⟩ := Option.map_eq_some_iff.mp hi
  obtain ⟨j, hj, hplace⟩ := exists_place (s.turn.get p) d
  have hk : before.length < clients := by
    have hlen := congrArg List.length hsplit
    rw [rotation, List.length_ofFn, List.length_append, List.length_cons] at hlen
    omega
  have hat := getElem_rotation clients (s.turn.get p) hk
  rw [hsplit, List.getElem?_append_right le_rfl, Nat.sub_self] at hat
  obtain rfl := Option.some.inj hat
  refine ⟨before.length, j, ?_, hj, rfl, hplace⟩
  -- Were the client before the selected one, it would have been found first.
  by_contra hlt
  have hget := getElem_rotation clients (s.turn.get p) hj
  rw [hsplit, List.getElem?_append_left (by omega)] at hget
  have hself : (⟨(s.turn.get p + j) % clients, Nat.mod_lt _ d.pos⟩ : Fin clients) = d :=
    Fin.ext hplace
  rw [hself] at hget
  have hempty := Option.map_eq_none_iff.mp (hnone d (List.mem_of_getElem? hget))
  unfold SlotQueue.peek at hempty
  rw [Waits, SlotQueue.isEmpty, hempty] at hd
  cases hd

theorem select_turn (s : Scheduler clients depth stamps) (line : Line) (now : UInt32) :
    (s.select line now).1.turn = s.turn := by
  obtain ⟨shaper, armed, he⟩ := s.exists_select_eq line now
  rw [he]

variable [Positive depth]

theorem enqueue_turn {client : ℕ} {h : Handle} (he : s.enqueue client h = .ok s') :
    s'.turn = s.turn := by
  obtain ⟨i, q, -, -, rfl⟩ := enqueue_eq he
  rfl

end Scheduler

/-- A selection, with the scheduler that made it. -/
structure Turn (clients depth stamps : ℕ) where
  scheduler : Scheduler clients depth stamps
  selection : Selection

namespace Turn

variable {clients depth stamps : ℕ}

def priority (t : Turn clients depth stamps) : Priority :=
  t.selection.handle.priority

def client (t : Turn clients depth stamps) : ℕ :=
  t.selection.client

/-- The client was the first in turn that had a frame. -/
def Due (t : Turn clients depth stamps) : Prop :=
  t.scheduler.peek t.priority = some t.selection

/-- The turn of the class goes on from one selection to the next. -/
def PassesTo (t t' : Turn clients depth stamps) : Prop :=
  t'.scheduler.turn.get t'.priority = (t.client + 1) % clients

variable {t t' : Turn clients depth stamps} {d : Fin clients}

theorem Due.client_lt (h : t.Due) : t.client < clients := by
  obtain ⟨i, hi, -⟩ := Scheduler.peek_cases h
  rw [client, hi]
  exact i.isLt

/-- The client that is served comes before a client that waits, or is the same. -/
theorem Due.place (h : t.Due) (hd : t.scheduler.Waits t.priority d) :
    ∃ j < clients, (t.scheduler.turn.get t.priority + j) % clients = d ∧
      turnsBetween clients t.client d ≤ j := by
  obtain ⟨k, j, hkj, hj, hclient, hplace⟩ := Scheduler.peek_first h hd
  have hback : (t.client + (j - k)) % clients = d := by
    rw [client, hclient, Nat.mod_add_mod, Nat.add_assoc, Nat.add_sub_cancel' hkj, hplace]
  have hbetween := turnsBetween_eq h.client_lt (by omega) hback
  exact ⟨j, hj, hplace, by omega⟩

/-- With each turn that passes a client that waits, the client comes closer. -/
theorem turnsBetween_anti (hnext : t.PassesTo t') (ht : t.Due) (ht' : t'.Due)
    (hd : t'.scheduler.Waits t'.priority d) (hne : t.client ≠ d) :
    turnsBetween clients t'.client d < turnsBetween clients t.client d := by
  obtain ⟨j, hj, hplace, hle⟩ := ht'.place hd
  have hpos := turnsBetween_pos ht.client_lt d.isLt hne
  have hlt := turnsBetween_lt (c := t.client) d.isLt
  have hback := add_turnsBetween ht.client_lt d.isLt
  generalize turnsBetween clients t.client d = n at *
  -- The turn went on by one, so that one turn less is left up to the client.
  have hrest : (t'.scheduler.turn.get t'.priority + (n - 1)) % clients = d := by
    rw [hnext, Nat.mod_add_mod, Nat.add_assoc, Nat.add_sub_cancel' hpos, hback]
  have heq := Pool.eq_of_mod_eq (Nat.le_add_right _ j) (by omega) (Nat.le_add_right _ (n - 1))
    (by omega) (hplace.trans hrest.symm)
  omega

/-- Consecutive turns that pass a client that waits. -/
structure Pass (d : Fin clients) (ts : List (Turn clients depth stamps)) : Prop where
  chain : ts.IsChain PassesTo
  due : ∀ t ∈ ts, t.Due
  waits : ∀ t ∈ ts, t.scheduler.Waits t.priority d
  passed : ∀ t ∈ ts, t.client ≠ d

namespace Pass

variable {ts : List (Turn clients depth stamps)}

theorem decreasing (h : Pass d ts) :
    (ts.map fun t => turnsBetween clients t.client d).Pairwise (· > ·) := by
  rw [← List.isChain_iff_pairwise, List.isChain_map]
  refine h.chain.imp_of_mem_imp fun t t' ht ht' hnext => ?_
  exact turnsBetween_anti hnext (h.due t ht) (h.due t' ht') (h.waits t' ht') (h.passed t ht)

theorem nodup (h : Pass d ts) : (ts.map client).Nodup := by
  have hpairs := List.pairwise_map.mp h.decreasing
  refine List.pairwise_map.mpr (hpairs.imp fun hlt he => ?_)
  rw [he] at hlt
  exact lt_irrefl _ hlt

theorem length_lt (h : Pass d ts) : ts.length < clients := by
  have hnd : (d.val :: ts.map client).Nodup := by
    refine List.nodup_cons.mpr ⟨fun hmem => ?_, h.nodup⟩
    obtain ⟨t, ht, he⟩ := List.mem_map.mp hmem
    exact h.passed t ht he
  have hsub : d.val :: ts.map client ⊆ List.range clients := by
    intro n hn
    rw [List.mem_range]
    rcases List.mem_cons.mp hn with rfl | hn
    · exact d.isLt
    · obtain ⟨t, ht, rfl⟩ := List.mem_map.mp hn
      exact (h.due t ht).client_lt
  have hle := (hnd.subperm hsub).length_le
  rw [List.length_cons, List.length_map, List.length_range] at hle
  omega

end Pass

end Turn

/-- A scheduler in use, with the turns that were taken. -/
structure Rota (clients depth stamps : ℕ) where
  state : Metering clients depth stamps
  asked : Scheduler clients depth stamps
  turns : List (Turn clients depth stamps) := []

namespace Rota

variable {clients depth stamps : ℕ}

/-- Whatever frames are queued, whoever's turn it is. -/
def begin (s : Scheduler clients depth stamps) (pools : PerPriority Pool) :
    Rota clients depth stamps where
  state := { scheduler := s, pools }
  asked := s

def turnsOf (x : Rota clients depth stamps) (p : Priority) : List (Turn clients depth stamps) :=
  x.turns.filter (·.priority = p)

/-- Each turn was due, and passed the turn of its class on to the next one. -/
structure InTurn (x : Rota clients depth stamps) : Prop where
  sorted : x.state.scheduler.Sorted
  asked : ∀ sel ∈ x.state.pending, (Turn.mk x.asked sel).Due ∧
    x.asked.turn.get sel.handle.priority = x.state.scheduler.turn.get sel.handle.priority
  due : ∀ t ∈ x.turns, t.Due
  chain : ∀ p, (x.turnsOf p).IsChain Turn.PassesTo
  last : ∀ p, ∀ t ∈ (x.turnsOf p).getLast?,
    x.state.scheduler.turn.get p = (t.client + 1) % clients

section

variable {x : Rota clients depth stamps} {s : Scheduler clients depth stamps}

theorem InTurn.begin (hs : s.Sorted) (pools : PerPriority Pool) : (Rota.begin s pools).InTurn where
  sorted := hs
  asked := by simp [Rota.begin]
  due := by simp [Rota.begin]
  chain p := by simp [Rota.begin, turnsOf]
  last p := by simp [Rota.begin, turnsOf]

theorem InTurn.quiet (h : x.InTurn) {state : Metering clients depth stamps}
    (hsorted : state.scheduler.Sorted) (hturn : state.scheduler.turn = x.state.scheduler.turn)
    (hpending : state.pending = x.state.pending) : InTurn { x with state } where
  sorted := hsorted
  asked sel hsel := by
    rw [hturn]
    exact h.asked sel (hpending ▸ hsel)
  due := h.due
  chain := h.chain
  last p t ht := by
    rw [hturn]
    exact h.last p t ht

theorem InTurn.select (h : x.InTurn) (line : Line) :
    let selection := (x.state.scheduler.select line x.state.timer).2
    InTurn { x with
      state := x.state.select line
      asked := if selection.isSome then x.state.scheduler else x.asked } := by
  intro selection
  have hscheduler : (x.state.select line).scheduler =
      (x.state.scheduler.select line x.state.timer).1 := rfl
  have hpending : (x.state.select line).pending = (selection <|> x.state.pending) := rfl
  have hturn : (x.state.select line).scheduler.turn = x.state.scheduler.turn :=
    x.state.scheduler.select_turn line x.state.timer
  constructor
  · intro p i
    rw [hscheduler, Scheduler.select_queues]
    exact h.sorted p i
  · intro sel hsel
    rw [hturn]
    rw [hpending] at hsel
    cases hs : selection with
    | none =>
      rw [hs] at hsel
      exact h.asked sel hsel
    | some sel' =>
      rw [hs] at hsel
      obtain rfl : sel' = sel := Option.some.inj hsel
      obtain ⟨p, hp⟩ := Scheduler.select_some hs
      obtain rfl := h.sorted.peek hp
      exact ⟨hp, rfl⟩
  · exact h.due
  · exact h.chain
  · intro p t ht
    rw [hturn]
    exact h.last p t ht

theorem InTurn.pass (h : x.InTurn) {p : Priority} {d : Fin clients}
    {ts : List (Turn clients depth stamps)} (hts : ts <:+: x.turnsOf p)
    (hd : ∀ t ∈ ts, t.scheduler.Waits p d) (hne : ∀ t ∈ ts, t.client ≠ d) : Turn.Pass d ts := by
  have hmem {t : Turn clients depth stamps} (ht : t ∈ ts) : t ∈ x.turns ∧ t.priority = p := by
    obtain ⟨hturn, hp⟩ := List.mem_filter.mp (hts.subset ht)
    exact ⟨hturn, of_decide_eq_true hp⟩
  constructor
  · obtain ⟨before, after, hsplit⟩ := hts
    have hchain := h.chain p
    rw [← hsplit] at hchain
    exact hchain.left_of_append.right_of_append
  · intro t ht
    exact h.due t (hmem ht).1
  · intro t ht
    rw [(hmem ht).2]
    exact hd t ht
  · exact hne

end

variable [Positive depth]

def step (x : Rota clients depth stamps) (a : Metering.Action) :
    Except Fault (Rota clients depth stamps) := do
  let state ← x.state.step a
  return match a with
    | .select line =>
      let selection := (x.state.scheduler.select line x.state.timer).2
      { x with state, asked := if selection.isSome then x.state.scheduler else x.asked }
    | .complete _ _ _ =>
      { x with state, turns := x.turns ++ (x.state.pending.map (⟨x.asked, ·⟩)).toList }
    | .wait _ | .reset | .enqueue _ _ | .send _ _ _ _ | .takeDeparture | .setPools _ =>
      { x with state }

def Reached (start : Rota clients depth stamps) : Rota clients depth stamps → Prop :=
  Run (fun _ _ => True) step start

namespace InTurn

variable {x y : Rota clients depth stamps} {s : Scheduler clients depth stamps}

theorem complete (h : x.InTurn) {stamp stop : UInt32} {line : Line}
    {state : Metering clients depth stamps} (hc : x.state.complete stamp stop line = .ok state) :
    InTurn { x with
      state
      turns := x.turns ++ (x.state.pending.map (⟨x.asked, ·⟩)).toList } := by
  unfold Metering.complete at hc
  cases hsel : x.state.pending with
  | none =>
    rw [hsel] at hc
    obtain rfl := Except.ok.inj hc
    rw [Option.map_none, Option.toList_none, List.append_nil]
    exact h
  | some sel =>
    rw [hsel] at hc
    obtain ⟨⟨s', pool⟩, hs', hc⟩ := bind_eq_ok_iff.mp hc
    obtain rfl := Except.ok.inj hc
    obtain ⟨hdue, hasked⟩ := h.asked sel hsel
    obtain ⟨-, -, -, -, hturn, hsorted⟩ := Scheduler.complete_eq hs'
    let t : Turn clients depth stamps := ⟨x.asked, sel⟩
    -- The turns of the other class are what they were.
    have hturns (p : Priority) : (x.turns ++ [t]).filter (·.priority = p) =
        x.turnsOf p ++ if t.priority = p then [t] else [] := by
      rw [List.filter_append]
      split_ifs with hp
      · rw [List.filter_cons_of_pos (by simpa using hp)]
        rfl
      · rw [List.filter_cons_of_neg (by simpa using hp)]
        rfl
    constructor
    · exact hsorted h.sorted
    · intro sel' hsel'
      cases hsel'
    · intro u hu
      rcases List.mem_append.mp hu with hu | hu
      · exact h.due u hu
      · rw [List.mem_singleton.mp hu]
        exact hdue
    · intro p
      change ((x.turns ++ [t]).filter (·.priority = p)).IsChain _
      rw [hturns]
      split_ifs with hp
      · refine (h.chain p).append (.singleton t) fun u hu v hv => ?_
        obtain rfl : t = v := Option.some.inj hv
        subst hp
        exact hasked.trans (h.last _ u hu)
      · rw [List.append_nil]
        exact h.chain p
    · intro p u hu
      change u ∈ ((x.turns ++ [t]).filter (·.priority = p)).getLast? at hu
      change s'.turn.get p = _
      rw [hturns] at hu
      rw [hturn]
      split_ifs at hu with hp
      · rw [List.getLast?_concat] at hu
        obtain rfl := Option.some.inj hu
        subst hp
        exact PerPriority.get_set _ _ _
      · rw [List.append_nil] at hu
        have hne : sel.handle.priority ≠ p := hp
        rw [PerPriority.get_set_of_ne _ _ hne]
        exact h.last p u hu

theorem step (h : x.InTurn) {a : Metering.Action} (hy : x.step a = .ok y) : y.InTurn := by
  obtain ⟨state, hstate, hy⟩ := bind_eq_ok_iff.mp hy
  obtain rfl := Except.ok.inj hy
  cases a with
  | select line =>
    obtain rfl := Except.ok.inj hstate
    exact h.select line
  | complete stamp stop line => exact h.complete hstate
  | wait ticks =>
    obtain rfl := Except.ok.inj hstate
    exact h.quiet h.sorted rfl rfl
  | reset =>
    obtain rfl := Except.ok.inj hstate
    exact h.quiet h.sorted rfl rfl
  | enqueue client hd =>
    obtain rfl := Except.ok.inj hstate
    unfold Metering.enqueue
    cases he : x.state.scheduler.enqueue client hd with
    | error e => exact h
    | ok s' => exact h.quiet (h.sorted.enqueue he).1 (Scheduler.enqueue_turn he) rfl
  | send p client frame timed =>
    obtain ⟨⟨s', pool, answer⟩, hsend, hstate⟩ := bind_eq_ok_iff.mp hstate
    obtain rfl := Except.ok.inj hstate
    rcases Scheduler.send_cases hsend with rfl | ⟨hd, he⟩
    · exact h.quiet h.sorted rfl rfl
    · exact h.quiet (h.sorted.enqueue he).1 (Scheduler.enqueue_turn he) rfl
  | takeDeparture =>
    obtain rfl := Except.ok.inj hstate
    exact h.quiet h.sorted rfl rfl
  | setPools pools =>
    obtain rfl := Except.ok.inj hstate
    exact h.quiet h.sorted rfl rfl

end InTurn

variable {x : Rota clients depth stamps} {s : Scheduler clients depth stamps}
  {pools : PerPriority Pool}

theorem Reached.inTurn (hx : Reached (begin s pools) x) (hs : s.Sorted) : x.InTurn :=
  Run.invariant hx (.begin hs pools) fun _ _ _ hu _ hv => hu.step hv

/-- While a client waits in a class, no other client is served there twice, so that it is served after
fewer turns than there are clients. -/
theorem reached_takes_turns (s : Scheduler clients depth stamps) (hs : s.Sorted)
    (pools : PerPriority Pool) (x : Rota clients depth stamps) (hx : Reached (begin s pools) x)
    (p : Priority) (d : Fin clients) (ts : List (Turn clients depth stamps))
    (hts : ts <:+: x.turnsOf p) (hd : ∀ t ∈ ts, t.scheduler.Waits p d) :
    ((∀ t ∈ ts, t.client ≠ d) → (ts.map (·.client)).Nodup) ∧
      (clients ≤ ts.length → ∃ t ∈ ts.take clients, t.client = d) := by
  have h := hx.inTurn hs
  constructor
  · intro hne
    exact (h.pass hts hd hne).nodup
  · intro hlen
    by_contra hnot
    have hfirst := (List.take_prefix clients ts).isInfix
    have hpass := h.pass (hfirst.trans hts) (fun t ht => hd t (hfirst.subset ht))
      fun t ht he => hnot ⟨t, ht, he⟩
    have hlt := hpass.length_lt
    rw [List.length_take, Nat.min_eq_left hlen] at hlt
    exact lt_irrefl _ hlt

/-- A frame that is queued right behind the turn of its client has to wait for all the others. -/
theorem reached_takes_turns_last :
    ∃ pools, ∃ x : Rota 3 2 1, Reached (begin (.empty 3 2 1) pools) x ∧
      x.turns.map (fun t => (t.priority, t.client)) =
        [(.low, 0), (.low, 1), (.high, 1), (.low, 2), (.low, 0)] ∧
      ∃ ts, ts <:+: x.turnsOf .low ∧ (∀ t ∈ ts, t.scheduler.Waits .low 0) ∧ ts.length = 3 ∧
        ((ts.take 2).map (·.client)).Nodup ∧ ∃ t ∈ ts.take 3, t.client = 0 := by
  let pool (p : Priority) : Pool :=
    { arena := .replicate 256 0, priority := p, roomy := by decide +kernel }
  let actions : List Metering.Action := [.send .low 0 [1] false, .send .low 1 [2] false,
    .send .low 2 [3] false, .select {}, .complete 0 0 {}, .send .low 0 [4] false, .select {},
    .complete 0 0 {}, .send .high 1 [5] false, .select {}, .complete 0 0 {}, .select {},
    .complete 0 0 {}, .select {}, .complete 0 0 {}]
  let start : Rota 3 2 1 := begin (.empty 3 2 1) ⟨pool .low, pool .high⟩
  have hrun : (perform (fun _ _ => True) step start actions).map (fun x =>
      (x.turns.map (fun t => (t.priority, t.client)), ((x.turnsOf .low).drop 1).map (·.client),
        decide (∀ t ∈ (x.turnsOf .low).drop 1, t.scheduler.Waits .low 0))) =
      some ([(.low, 0), (.low, 1), (.high, 1), (.low, 2), (.low, 0)], [1, 2, 0], true) := by
    decide +kernel
  obtain ⟨x, hx, he⟩ := Option.map_eq_some_iff.mp hrun
  simp only [Prod.mk.injEq, decide_eq_true_eq] at he
  obtain ⟨hturns, hclients, hd⟩ := he
  have hreached : Reached start x := Run.of_perform hx
  have hlow : (x.turnsOf .low).drop 1 <:+: x.turnsOf .low := (List.drop_suffix _ _).isInfix
  generalize (x.turnsOf .low).drop 1 = ts at hclients hd hlow
  have hlength : ts.length = 3 := by
    rw [← List.length_map (·.client), hclients]
    rfl
  have htake : (ts.take 2).map (·.client) = [1, 2] := by
    rw [List.map_take, hclients]
    rfl
  have hsorted : (Scheduler.empty 3 2 1).Sorted := Scheduler.sorted_empty
  have hfirst := reached_takes_turns _ hsorted _ x hreached .low 0 (ts.take 2)
    ((List.take_prefix 2 ts).isInfix.trans hlow) fun t ht => hd t (List.mem_of_mem_take ht)
  have hall := reached_takes_turns _ hsorted _ x hreached .low 0 ts hlow hd
  refine ⟨_, x, hreached, hturns, ts, hlow, hd, hlength, hfirst.1 ?_, hall.2 hlength.ge⟩
  intro t ht he
  have hmem : t.client ∈ [1, 2] := htake ▸ List.mem_map_of_mem ht
  rw [he] at hmem
  cases hmem with
  | tail _ h => cases h with
    | tail _ h => cases h

end Rota

end EtherBuffer.Egress
