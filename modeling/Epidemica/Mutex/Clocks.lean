import Epidemica.Mutex.Exclusion
import Mathlib.Data.List.Forall2

/-!
# `Mutex.Clocks` — what the clocks and the order of the requests mean

The clocks of two nodes bound what they know of each other, and the `(ticks, id)` pairs of the requests
extend the order of cause and effect between them. A message carries a value that was read from a clock,
and a `REQUEST` may leave long after it was read. So a message passes on what its sender knew when the value
was **read**, and a history beside the state writes down what that is.
-/

namespace Epidemica

open Network Transition

/-- The value that the messages of the thread carry. -/
def Pc.stamp? : Pc → Option Int
  | .store t | .sendRequest t _ => some t
  | .sendRelease _ v _ => some v
  | _ => none

namespace Mutex

/-! ## The history -/

/-- A request, by its node and the ticks that `requestCS` read for it. -/
structure Request where
  id : Int
  ticks : Int
  deriving DecidableEq, Repr

/-- A request that was made. When its ticks were read, its node had handled the `REQUEST`s `heard` and knew
    of the requests `past`. -/
structure Made where
  request : Request
  heard : List Request
  past : List Request
  deriving DecidableEq, Repr

/-- What a node has handled, what it knows of, and what its thread knew of when it read the value that it
    sends. -/
structure NodeLog where
  heard : List Request
  known : List Request
  read : List Request
  deriving DecidableEq, Repr

/-- The thread of `p` reads the ticks of a new request, or the value of a `RELEASE`. -/
def NodeLog.stmt (p : Int) (n : MutexNode) (k : NodeLog) : NodeLog :=
  match n.pc with
  | .getValue =>
    { k with
      known := ⟨p, n.lamport.clock.getValue p⟩ :: k.known
      read := ⟨p, n.lamport.clock.getValue p⟩ :: k.known }
  | .getRelease _ => { k with read := k.known }
  | _ => k

/-- A message of `q` is handled, whose sender knew of `past` when it read the value. -/
def NodeLog.handle (q : Int) (m : Msg) (past : List Request) (k : NodeLog) : NodeLog :=
  { k with
    heard := if m.tag = .request then ⟨q, m.value⟩ :: k.heard else k.heard
    known := past ++ k.known }

/-- The request whose ticks the next statement of the thread of `p` reads. -/
def NodeLog.made (p : Int) (n : MutexNode) (k : NodeLog) : List Made :=
  if n.pc = .getValue then [⟨⟨p, n.lamport.clock.getValue p⟩, k.heard, k.known⟩] else []

/-- `made` are the requests in the order in which they were made; `flight q p` goes with the messages in
    flight from `q` to `p`. -/
structure Log where
  made : List Made
  node : Int → NodeLog
  flight : Channels Int (List Request)

/-- Nothing has been made, heard or sent. -/
def Log.empty : Log := ⟨[], fun _ => ⟨[], [], []⟩, fun _ _ => []⟩

/-- The same knowledge for every message sent. -/
def carry (past : List Request) (outs : Outs) : List (Int × List Request) :=
  outs.map fun o => (o.1, past)

/-- What a step adds to the log: a message carries what its sender knows. -/
def record (net : Mesh) (s : State) (l : Label) (k : Log) : Log :=
  match l with
  | .requester p =>
    { made := k.made ++ (k.node p).made p (s.node p)
      node := Function.update k.node p ((k.node p).stmt p (s.node p))
      flight := sendAll k.flight p (carry (k.node p).read ((s.node p).requester (net.peers p) p).2) }
  | .handle p q =>
    match s.chan q p, k.flight q p with
    | m :: _, past :: _ =>
      { k with
        node := Function.update k.node p ((k.node p).handle q m past)
        flight := sendAll (receive k.flight q p 0) p
          (carry (past ++ (k.node p).known) ((s.node p).handle p m.value q m.tag).2) }
    | _, _ => k

/-- The mutexes with this history. -/
def logged (net : Mesh) : System (State × Log) Label := (system net).withHistory Log.empty (record net)

/-! ## One node -/

/-- The own clock is past all that the node knows of. -/
structure NodeLogInv (p : Int) (n : MutexNode) (k : NodeLog) : Prop where
  known : ∀ r ∈ k.known, r.ticks ≤ n.lamport.clock.getValue p
  ticked : n.pc = .getValue → ∀ r ∈ k.known, r.ticks < n.lamport.clock.getValue p
  heard : ∀ r ∈ k.heard, r ∈ k.known
  read : ∀ v, n.pc.stamp? = some v → ∀ r ∈ k.read, r.ticks ≤ v
  own : ∀ t, n.pc.request? = some t → ⟨p, t⟩ ∈ k.read

theorem nodeLogInv_init (p : Int) : NodeLogInv p (MutexNode.init p) ⟨[], [], []⟩ := by
  constructor <;> simp [MutexNode.init, Pc.stamp?, Pc.request?]

/-- A statement that reads no clock: the thread goes on with what it has read, or is done with it. -/
theorem NodeLogInv.quiet {p : Int} {n n' : MutexNode} {k : NodeLog} (h : NodeLogInv p n k)
    (hclock : n'.lamport.clock = n.lamport.clock) (hpc : n'.pc ≠ .getValue)
    (hstamp : ∀ v, n'.pc.stamp? = some v → n.pc.stamp? = some v)
    (hreq : ∀ t, n'.pc.request? = some t → n.pc.request? = some t) : NodeLogInv p n' k := by
  refine ⟨?_, fun he => absurd he hpc, h.heard, fun v hv => h.read v (hstamp v hv),
    fun t ht => h.own t (hreq t ht)⟩
  intro r hr
  rw [hclock]
  exact h.known r hr

theorem NodeLogInv.stmt {p : Int} {peers : List Int} {n : MutexNode} {k : NodeLog}
    (h : NodeLogInv p n k) : NodeLogInv p (n.requester peers p).1 (k.stmt p n) := by
  obtain ⟨m, pc⟩ := n
  have hknown := h.known
  simp only at hknown
  cases pc with
  | idle =>
    -- the tick takes the clock past everything known
    have hlt : ∀ r ∈ k.known, r.ticks < (m.tick p).clock.getValue p := by
      intro r hr
      have := hknown r hr
      simp only [LamportMutex.tick_clock, DirectClock.getValue_tick, if_pos]
      omega
    exact ⟨fun r hr => Int.le_of_lt (hlt r hr), fun _ => hlt, h.heard,
      by simp [MutexNode.requester, Pc.stamp?], by simp [MutexNode.requester, Pc.request?]⟩
  | getValue =>
    have hle : ∀ r ∈ (⟨p, m.clock.getValue p⟩ : Request) :: k.known, r.ticks ≤ m.clock.getValue p := by
      intro r hr
      rcases List.mem_cons.mp hr with rfl | hr
      · exact Int.le_refl _
      · exact hknown r hr
    refine ⟨hle, by simp [MutexNode.requester], fun r hr => List.mem_cons_of_mem _ (h.heard r hr), ?_, ?_⟩
    · intro v hv r hr
      obtain rfl := Option.some.inj hv
      exact hle r hr
    · intro t ht
      obtain rfl := Option.some.inj ht
      exact List.mem_cons_self
  | getRelease t =>
    refine ⟨hknown, by simp [MutexNode.requester], h.heard, ?_, by simp [MutexNode.requester, Pc.request?]⟩
    intro v hv r hr
    obtain rfl := Option.some.inj hv
    exact hknown r hr
  | store t | inCS t =>
    exact h.quiet rfl (by simp [MutexNode.requester]) (by simp [MutexNode.requester, Pc.stamp?])
      (by simp [MutexNode.requester, Pc.request?])
  | sendRequest t todo | sendRelease t v todo =>
    cases todo with
    | nil | cons q todo =>
      exact h.quiet rfl (by simp [MutexNode.requester]) (by simp [MutexNode.requester, Pc.stamp?])
        (by simp [MutexNode.requester, Pc.request?])
  | wait t =>
    show NodeLogInv p _ k
    simp only [MutexNode.requester]
    split
    · exact h.quiet rfl (by simp) (by simp [Pc.stamp?]) (by simp [Pc.request?])
    · exact h

/-- The handler takes the clock past the value it is handed. -/
theorem NodeLogInv.handle {p q : Int} {n : MutexNode} {k : NodeLog} {m : Msg} {past : List Request}
    (h : NodeLogInv p n k) (hqp : q ≠ p) (hpast : ∀ r ∈ past, r.ticks ≤ m.value)
    (hreq : m.tag = .request → ⟨q, m.value⟩ ∈ past) :
    NodeLogInv p (n.handle p m.value q m.tag).1 (k.handle q m past) := by
  have hself := n.handle_clock_self m.value m.tag hqp
  have hlt : ∀ r ∈ past ++ k.known, r.ticks < (n.handle p m.value q m.tag).1.lamport.clock.getValue p := by
    intro r hr
    rw [hself]
    rcases List.mem_append.mp hr with hr | hr
    · have := hpast r hr
      omega
    · have := h.known r hr
      omega
  refine ⟨fun r hr => Int.le_of_lt (hlt r hr), fun _ => hlt, ?_, h.read, h.own⟩
  intro r hr
  simp only [NodeLog.handle] at hr ⊢
  split at hr
  · rename_i htag
    rcases List.mem_cons.mp hr with rfl | hr
    · exact List.mem_append_left _ (hreq htag)
    · exact List.mem_append_right _ (h.heard r hr)
  · exact List.mem_append_right _ (h.heard r hr)

/-! ## What is in flight -/

/-- What the sender of a message knew is not past the value of the message, and a `REQUEST` is part of
    it. -/
def Carries (q : Int) (m : Msg) (past : List Request) : Prop :=
  (∀ r ∈ past, r.ticks ≤ m.value) ∧ (m.tag = .request → ⟨q, m.value⟩ ∈ past)

theorem select_carry (q : Int) (past : List Request) (outs : Outs) :
    select q (carry past outs) = (select q outs).map fun _ => past := by
  induction outs with
  | nil => rfl
  | cons o outs ih =>
    obtain ⟨r, m⟩ := o
    show select q ((r, past) :: carry past outs) = _
    rw [select_cons, select_cons, ih]
    by_cases hr : r = q <;> simp [hr]

/-- Messages that all carry the same knowledge. -/
theorem forall₂_carry {a b : Int} {past : List Request} {outs : Outs} {c : List Msg}
    {f : List (List Request)} (h : List.Forall₂ (Carries a) c f)
    (hsent : ∀ m ∈ select b outs, Carries a m past) :
    List.Forall₂ (Carries a) (c ++ select b outs) (f ++ select b (carry past outs)) := by
  rw [select_carry]
  apply List.rel_append h
  rw [List.forall₂_map_right_iff, List.forall₂_same]
  exact hsent

/-- What the thread sends carries the value it has read, and a `REQUEST` names its request. -/
theorem stamp_requester {peers : List Int} {a b : Int} {n : MutexNode} {m : Msg}
    (hm : m ∈ select b (n.requester peers a).2) :
    n.pc.stamp? = some m.value ∧ (m.tag = .request → n.pc.request? = some m.value) := by
  obtain ⟨l, pc⟩ := n
  rcases pc with _ | _ | _ | ⟨t, _ | ⟨q, todo⟩⟩ | _ | _ | _ | ⟨t, v, _ | ⟨q, todo⟩⟩ <;>
    simp only [MutexNode.requester] at hm
  case sendRequest.cons => by_cases hq : q = b <;> simp_all [Pc.stamp?, Pc.request?]
  case sendRelease.cons => by_cases hq : q = b <;> simp_all [Pc.stamp?]
  case wait => split at hm <;> simp at hm
  all_goals simp at hm

theorem NodeLogInv.carries {p b : Int} {peers : List Int} {n : MutexNode} {k : NodeLog}
    (h : NodeLogInv p n k) {m : Msg} (hm : m ∈ select b (n.requester peers p).2) :
    Carries p m k.read := by
  obtain ⟨hstamp, hreq⟩ := stamp_requester hm
  exact ⟨h.read _ hstamp, fun htag => h.own _ (hreq htag)⟩

/-! ## Every run -/

/-- What a run has written down is behind the clocks it was written at. -/
structure LogInv (s : State) (k : Log) : Prop where
  node : ∀ p, NodeLogInv p (s.node p) (k.node p)
  flight : ∀ q p, List.Forall₂ (Carries q) (s.chan q p) (k.flight q p)
  past : ∀ e ∈ k.made, ∀ r ∈ e.past, r.ticks < e.request.ticks
  heard : ∀ e ∈ k.made, ∀ r ∈ e.heard, r ∈ e.past
  known : ∀ e ∈ k.made, e.request ∈ (k.node e.request.id).known
  own : k.made.Pairwise fun e e' => e.request.id = e'.request.id → e.request ∈ e'.past

theorem logInv_init : LogInv init Log.empty := by
  refine ⟨nodeLogInv_init, fun _ _ => List.Forall₂.nil, ?_, ?_, ?_, List.Pairwise.nil⟩ <;>
    simp [Log.empty]

/-- A node never forgets. -/
theorem NodeLog.known_stmt {p : Int} {n : MutexNode} {k : NodeLog} {r : Request} (h : r ∈ k.known) :
    r ∈ (k.stmt p n).known := by
  unfold NodeLog.stmt
  split
  · exact List.mem_cons_of_mem _ h
  · exact h
  · exact h

theorem NodeLog.mem_made {p : Int} {n : MutexNode} {k : NodeLog} {e : Made} (h : e ∈ k.made p n) :
    n.pc = .getValue ∧ e = ⟨⟨p, n.lamport.clock.getValue p⟩, k.heard, k.known⟩ := by
  unfold NodeLog.made at h
  split at h
  · exact ⟨‹_›, List.mem_singleton.mp h⟩
  · exact absurd h (by simp)

theorem LogInv.requester (net : Mesh) {s : State} {k : Log} (h : LogInv s k) (p : Int) :
    LogInv (s.put p ((s.node p).requester (net.peers p) p)) (record net s (.requester p) k) := by
  have hnode := h.node p
  refine ⟨?_, ?_, ?_, ?_, ?_, ?_⟩
  · intro a
    by_cases ha : a = p
    · subst ha
      simpa [record] using hnode.stmt
    · simpa [record, ha] using h.node a
  · intro a b
    simp only [record, put_chan, sendAll_apply]
    split
    · rename_i ha
      subst ha
      exact forall₂_carry (h.flight a b) (fun m hm => hnode.carries hm)
    · exact h.flight a b
  · intro e he r hr
    rcases List.mem_append.mp he with hold | hnew
    · exact h.past e hold r hr
    · -- between the tick and the reading the clock is past everything known
      obtain ⟨hpc, rfl⟩ := NodeLog.mem_made hnew
      exact hnode.ticked hpc r hr
  · intro e he r hr
    rcases List.mem_append.mp he with hold | hnew
    · exact h.heard e hold r hr
    · obtain ⟨-, rfl⟩ := NodeLog.mem_made hnew
      exact hnode.heard r hr
  · intro e he
    show e.request ∈ (Function.update k.node p _ e.request.id).known
    rcases List.mem_append.mp he with hold | hnew
    · by_cases hid : e.request.id = p
      · have hknown := h.known e hold
        rw [hid] at hknown ⊢
        rw [Function.update_self]
        exact NodeLog.known_stmt hknown
      · rw [Function.update_of_ne hid]
        exact h.known e hold
    · obtain ⟨hpc, rfl⟩ := NodeLog.mem_made hnew
      simp [NodeLog.stmt, hpc]
  · show (k.made ++ _).Pairwise _
    rw [List.pairwise_append]
    refine ⟨h.own, ?_, ?_⟩
    · unfold NodeLog.made
      split
      · exact List.pairwise_singleton _ _
      · exact List.Pairwise.nil
    · intro e he e' he' hid
      obtain ⟨-, rfl⟩ := NodeLog.mem_made he'
      have hknown := h.known e he
      rw [hid] at hknown
      exact hknown

theorem LogInv.handle (net : Mesh) {s : State} {k : Log} (h : LogInv s k) {p q : Int} (hqp : q ≠ p)
    {m : Msg} {rest : List Msg} (hc : s.chan q p = m :: rest) :
    LogInv (State.put { s with chan := receive s.chan q p 0 } p ((s.node p).handle p m.value q m.tag))
      (record net s (.handle p q) k) := by
  obtain ⟨past, later, hcarries, hlater, hf⟩ := List.forall₂_cons_left_iff.mp (hc ▸ h.flight q p)
  have hnode := (h.node p).handle hqp hcarries.1 hcarries.2
  have hrecord : record net s (.handle p q) k =
      { k with
        node := Function.update k.node p ((k.node p).handle q m past)
        flight := sendAll (receive k.flight q p 0) p
          (carry (past ++ (k.node p).known) ((s.node p).handle p m.value q m.tag).2) } := by
    simp only [record, hc, hf]
  rw [hrecord]
  refine ⟨?_, ?_, h.past, h.heard, ?_, h.own⟩
  · intro a
    by_cases ha : a = p
    · subst ha
      simpa using hnode
    · simpa [ha] using h.node a
  · intro a b
    have hreceive : List.Forall₂ (Carries a) (receive s.chan q p 0 a b) (receive k.flight q p 0 a b) := by
      rw [receive_apply, receive_apply]
      split
      · rename_i hab
        obtain ⟨rfl, rfl⟩ := hab
        rw [hc, hf]
        exact hlater
      · exact h.flight a b
    simp only [put_chan, sendAll_apply]
    split
    · rename_i ha
      subst ha
      apply forall₂_carry hreceive
      intro x hx
      rw [MutexNode.ack_of_mem_select hx]
      exact ⟨hnode.known, fun hfalse => absurd hfalse (by simp)⟩
    · exact hreceive
  · intro e he
    show e.request ∈ (Function.update k.node p _ e.request.id).known
    by_cases hid : e.request.id = p
    · have hknown := h.known e he
      rw [hid] at hknown ⊢
      rw [Function.update_self]
      exact List.mem_append_right _ hknown
    · rw [Function.update_of_ne hid]
      exact h.known e he

theorem logInv {net : Mesh} {x : State × Log} (hx : Reachable (logged net) (Guard.past anyStep) x) :
    LogInv x.1 x.2 := by
  refine Reachable.invariant (I := fun x => LogInv x.1 x.2) ?_ ?_ hx
  · rintro ⟨s, k⟩ ⟨hs, hk⟩
    rw [show s = init from hs, show k = Log.empty from hk]
    exact logInv_init
  · rintro ⟨s, k⟩ l ⟨t, k'⟩ _ h _ hst
    obtain ⟨hst, hk⟩ := withHistory_step.mp hst
    replace hk : k' = record net s l k := hk
    subst hk
    cases l with
    | requester p =>
      obtain ⟨-, rfl⟩ := step_requester hst
      exact h.requester net p
    | handle p q =>
      obtain ⟨hp, hq, m, rest, hc, rfl⟩ := step_handle hst
      exact h.handle net ((net.mem_peers hp).mp hq).2 hc

/-- Nothing in flight is ahead of the clock of its sender. -/
theorem flight_le {net : Mesh} {s : State} (hs : Reachable (system net) (handling anyMessage) s) :
    ∀ q ∈ net.cores, ∀ p, ∀ m ∈ s.chan q p, m.value ≤ (s.node q).lamport.clock.getValue q := by
  refine Reachable.invariant (I := fun s => ∀ q ∈ net.cores, ∀ p, ∀ m ∈ s.chan q p,
    m.value ≤ (s.node q).lamport.clock.getValue q) ?_ ?_ hs
  · rintro s rfl q _ p m hm
    simp [init] at hm
  · intro s l t hs h _ hst a ha b m hm
    cases l with
    | requester p =>
      obtain ⟨-, rfl⟩ := step_requester hst
      rw [put_chan] at hm
      rw [put_node]
      by_cases hap : a = p
      · subst hap
        rw [if_pos rfl] at hm ⊢
        have hle := requester_clock_self_le (net.peers a) a (s.node a)
        rcases List.mem_append.mp hm with hold | hnew
        · exact Int.le_trans (h a ha b m hold) hle
        · exact Int.le_trans ((nodeInv hs ha).bound _ (sent_value_mem hnew)) hle
      · rw [if_neg hap] at hm ⊢
        exact h a ha b m hm
    | handle p q =>
      obtain ⟨hp, hq, x, rest, hc, rfl⟩ := step_handle hst
      have hqp : q ≠ p := ((net.mem_peers hp).mp hq).2
      have hmem : ∀ y ∈ receive s.chan q p 0 a b, y ∈ s.chan a b := by
        intro y hy
        rw [receive_apply] at hy
        split at hy
        · exact List.mem_of_mem_eraseIdx hy
        · exact hy
      rw [put_chan] at hm
      rw [put_node]
      by_cases hap : a = p
      · subst hap
        rw [if_pos rfl] at hm ⊢
        have hself := (s.node a).handle_clock_self x.value x.tag hqp
        rcases List.mem_append.mp hm with hold | hnew
        · have := h a ha b m (hmem m hold)
          omega
        · rw [MutexNode.ack_of_mem_select hnew]
      · rw [if_neg hap] at hm ⊢
        exact h a ha b m (hmem m hm)

/-! ## Clocks and requests -/

/-- `e` was made before the ticks of `e'` were read, and the node of `e'` knew of it: it had made `e`
    itself, or had handled a value that was read by a node that knew of `e`. -/
def Precedes (k : Log) (e e' : Made) : Prop := e ∈ k.made ∧ e' ∈ k.made ∧ e.request ∈ e'.past

/-- What the clocks of the nodes say of each other and of the requests made so far. -/
structure ClockOrder (net : Mesh) (s : State) (k : Log) : Prop where
  entry_lt : ∀ p ∈ net.cores, ∀ q ∈ net.cores, p ≠ q →
    (s.node p).lamport.clock.getValue q < (s.node p).lamport.clock.getValue p
  entry_le : ∀ p ∈ net.cores, ∀ q ∈ net.cores, p ≠ q →
    (s.node p).lamport.clock.getValue q ≤ (s.node q).lamport.clock.getValue q
  flight_le : ∀ q ∈ net.cores, ∀ p, ∀ m ∈ s.chan q p, m.value ≤ (s.node q).lamport.clock.getValue q
  /-- The ticks of the successive requests of one node increase. -/
  successive : k.made.Pairwise fun e e' =>
    e.request.id = e'.request.id → e.request.ticks < e'.request.ticks
  /-- Ticks are later than every `REQUEST` that was handled before they were read. -/
  heard : ∀ e ∈ k.made, ∀ r ∈ e.heard, r.ticks < e.request.ticks
  /-- No two requests have the same pair. -/
  distinct : (k.made.map fun e => (e.request.ticks, e.request.id)).Nodup
  /-- What was made on the same node, or heard of in a `REQUEST`, precedes. -/
  own_past : k.made.Pairwise fun e e' => e.request.id = e'.request.id → e.request ∈ e'.past
  heard_past : ∀ e ∈ k.made, ∀ r ∈ e.heard, r ∈ e.past
  /-- A cause has the smaller pair. -/
  causal : ∀ e e', Relation.TransGen (Precedes k) e e' →
    isGreater e'.request.ticks e'.request.id e.request.ticks e.request.id = true

/-- **Clock invariants.** In every interleaving the clocks are ordered so. -/
theorem clock_order (net : Mesh) (s : State) (k : Log)
    (hs : Reachable (logged net) (Guard.past anyStep) (s, k)) : ClockOrder net s k := by
  have hinv : LogInv s k := logInv hs
  have hstate : Reachable (system net) (handling anyMessage) s :=
    (Reachable.forget hs).mono fun s l _ => handling_anyMessage s l
  have hsucc : k.made.Pairwise fun e e' =>
      e.request.id = e'.request.id → e.request.ticks < e'.request.ticks := by
    refine List.Pairwise.imp_of_mem ?_ hinv.own
    intro e e' _ he' hown hid
    exact hinv.past e' he' e.request (hown hid)
  refine
    { entry_lt := ?_
      entry_le := ?_
      flight_le := flight_le hstate
      successive := hsucc
      heard := fun e he r hr => hinv.past e he r (hinv.heard e he r hr)
      distinct := ?_
      own_past := hinv.own
      heard_past := hinv.heard
      causal := ?_ }
  · intro p hp q hq hpq
    exact (linkInv hstate hq hp hpq.symm).entry_lt
  · intro p hp q hq hpq
    exact (linkInv hstate hq hp hpq.symm).entry_le
  · show List.Pairwise _ _
    rw [List.pairwise_map]
    refine List.Pairwise.imp ?_ hsucc
    intro e e' hlt heq
    obtain ⟨hticks, hid⟩ := Prod.mk.inj heq
    exact absurd hticks (Int.ne_of_lt (hlt hid))
  · intro e e' hcause
    rw [isGreater_eq_true]
    left
    induction hcause with
    | single h => exact hinv.past _ h.2.1 _ h.2.2
    | tail _ h ih => exact Int.lt_trans ih (hinv.past _ h.2.1 _ h.2.2)

/-- Node `1` sends a `REQUEST` to node `2`, which handles it and makes a request of its own. -/
def answeredRun : List Label :=
  [.requester 1, .requester 1, .requester 1, .requester 1, .handle 2 1, .requester 2, .requester 2]

theorem clock_order_answeredRun :
    ∃ s k, Reachable (logged Mesh.two) (Guard.past anyStep) (s, k) ∧
      k.made = [⟨⟨1, 2⟩, [], []⟩, ⟨⟨2, 4⟩, [⟨1, 2⟩], [⟨1, 2⟩]⟩] ∧ ClockOrder Mesh.two s k := by
  obtain ⟨⟨s, k⟩, -, hs, hmade⟩ := Reachable.of_exec (logged Mesh.two) (Guard.past anyStep)
    (init, Log.empty) answeredRun
    (fun x => decide (x.2.made = [⟨⟨1, 2⟩, [], []⟩, ⟨⟨2, 4⟩, [⟨1, 2⟩], [⟨1, 2⟩]⟩])) ⟨rfl, rfl⟩ (by decide)
  exact ⟨s, k, hs, of_decide_eq_true hmade, clock_order _ s k hs⟩

end Mutex
end Epidemica
