import Epidemica.Mutex.Invariants

/-!
# `Mutex.Exclusion` — mutual exclusion, and the window in which it is lost

`requestCS` reads its clock and sends the value later, and `HandleMsg` may run in between. If it handles
a `REQUEST` of `q` there, the `ACK` carries a newer clock than the `REQUEST` that is still to be sent to
`q`, and overtakes it: `q` believes that nothing older is on its way (`mutual_exclusion_fails`). In every
run in which no node does that, at most one node is in its critical section (`mutual_exclusion`).

The argument: what `q` knows of `p`'s clock stays behind `p`'s request until `q` has handled it
(`OrderInv`), so a true `okeyCS` test of `q` is a comparison with every request already read
(`PriorityInv`).
-/

namespace Epidemica

namespace Pc

/-- The request the thread is making or holds: its ticks have been read. -/
def request? : Pc → Option Int
  | .store t | .sendRequest t _ | .wait t | .inCS t => some t
  | _ => none

/-- The ticks have been read and the `REQUEST` to `q` has not been sent. -/
def unsent (q : Int) : Pc → Bool
  | .store _ => true
  | .sendRequest _ todo => q ∈ todo
  | _ => false

end Pc

namespace Mutex

open Network Transition

/-- No node handles a `REQUEST` of `q` between reading its clock in `requestCS` and sending its own
    `REQUEST` to `q`. -/
def noOvertake : Handling := fun _ n q m => m.tag = .request → n.pc.unsent q = false

instance (p : Int) (n : MutexNode) (q : Int) (m : Msg) : Decidable (noOvertake p n q m) :=
  inferInstanceAs (Decidable (_ → _))

/-- What `b` knows of a request of `a` that is being made or held. -/
structure OrderInv (a b : Int) (k : Link) : Prop where
  /-- Not sent yet: `b` has heard, and will hear, of no later clock. -/
  unsent : ∀ t, k.left.pc.request? = some t → k.left.pc.unsent b = true →
    k.right.lamport.clock.getValue a ≤ t ∧ ∀ m ∈ k.out, m.value ≤ t
  /-- Sent: it stands in the queue of `b`, or no later clock of `a` is ahead of it. -/
  sent : ∀ t, k.left.pc.request? = some t → k.left.pc.unsent b = false →
    (k.right.lamport.requestQ a = some t ∧ ∀ m ∈ k.out, m.tag = .ack) ∨
    (k.right.lamport.clock.getValue a ≤ t ∧ ∃ l₁ l₂, k.out = l₁ ++ ⟨.request, t⟩ :: l₂ ∧
      (∀ m ∈ l₁, m.value ≤ t) ∧ ∀ m ∈ l₂, m.tag = .ack)

theorem orderInv_init {a b : Int} : OrderInv a b (init.link a b) := by
  constructor <;> simp [State.link, init, MutexNode.init, Pc.request?]

/-- What a statement does to a request, as far as `b` is concerned: it reads the clock, sends to `b`,
    leaves the request as it is, or there is no request after it. -/
theorem requester_request {peers : List Int} {a b : Int} {n : MutexNode} (hb : b ∈ peers)
    (htodo : n.pc.todo.Nodup) :
    ((n.requester peers a).1.pc.request? = some (n.lamport.clock.getValue a) ∧
      (n.requester peers a).1.pc.unsent b = true ∧ select b (n.requester peers a).2 = []) ∨
    (∃ t, n.pc.request? = some t ∧ n.pc.unsent b = true ∧
      (n.requester peers a).1.pc.request? = some t ∧ (n.requester peers a).1.pc.unsent b = false ∧
      select b (n.requester peers a).2 = [⟨.request, t⟩]) ∨
    ((n.requester peers a).1.pc.request? = n.pc.request? ∧
      (n.requester peers a).1.pc.unsent b = n.pc.unsent b ∧
      select b (n.requester peers a).2 = []) ∨
    (n.requester peers a).1.pc.request? = none := by
  obtain ⟨m, pc⟩ := n
  rcases pc with _ | _ | t | ⟨t, _ | ⟨q, todo⟩⟩ | t | _ | _ | ⟨_, _, _ | ⟨q, todo⟩⟩ <;>
    simp only [MutexNode.requester]
  case sendRequest.cons =>
    by_cases hq : q = b
    · subst hq
      simp [Pc.request?, Pc.unsent, (List.nodup_cons.mp htodo).1]
    · simp [Pc.request?, Pc.unsent, hq, Ne.symm hq]
  case wait => split <;> simp [Pc.request?, Pc.unsent]
  all_goals simp [Pc.request?, Pc.unsent, hb]

section
variable {net : Mesh} {a b : Int} {k k' : Link}

/-- A step of `a` keeps the order: reading the clock starts it, sending to `b` carries it on. The
    handler of `a` acknowledges no request of `b` in the window, which is where the guard is used. -/
theorem OrderInv.left (hbp : b ∈ net.peers a) (hn : NodeInv a k.left) (hk : LinkInv a b k)
    (h : OrderInv a b k) (hstep : LeftStep net noOvertake a b k k') : OrderInv a b k' := by
  obtain ⟨hunsent, hsent⟩ := h
  cases hstep with
  | stmt =>
    rcases requester_request (a := a) hbp hn.todo with
      ⟨hreq, huns, hout⟩ | ⟨t, hreq, huns, hreq', huns', hout⟩ | ⟨hreq, huns, hout⟩ | hreq
    · -- the clock is read: everything sent so far is behind it
      refine ⟨?_, by simp [huns]⟩
      rintro t ht -
      obtain rfl := Option.some.inj (hreq.symm.trans ht)
      exact ⟨hk.entry_le, by simpa [hout] using hk.flight_le⟩
    · -- the request is sent to `b`, behind older messages only
      obtain ⟨hclock, hle⟩ := hunsent t hreq huns
      refine ⟨by simp [huns'], ?_⟩
      rintro u hu -
      obtain rfl := Option.some.inj (hreq'.symm.trans hu)
      exact Or.inr ⟨hclock, k.out, [], by simp [hout], hle, by simp⟩
    · exact ⟨by simpa [hreq, huns, hout] using hunsent, by simpa [hreq, huns, hout] using hsent⟩
    · -- there is no request any more
      constructor <;> simp [hreq]
  | handle m rest hback hok =>
    refine ⟨?_, ?_⟩
    · intro t ht hu
      -- in the window no request of `b` is handled, so no newer clock overtakes
      have htag : m.tag ≠ .request := fun htag => absurd hu (by simp [hok htag])
      simpa [select_handle, htag] using hunsent t ht hu
    · intro t ht hu
      -- behind the request there are acknowledgements only
      have hack : ∀ x ∈ select b (k.left.handle a m.value b m.tag).2, x.tag = .ack := by
        intro x hx
        rw [MutexNode.ack_of_mem_select hx]
      rcases hsent t ht hu with ⟨hq, hout⟩ | ⟨hclock, l₁, l₂, hout, h₁, h₂⟩
      · refine Or.inl ⟨hq, ?_⟩
        intro x hx
        exact (List.mem_append.mp hx).elim (hout x) (hack x)
      · refine Or.inr ⟨hclock, l₁, l₂ ++ select b (k.left.handle a m.value b m.tag).2, ?_, h₁, ?_⟩
        · simp [hout]
        · intro x hx
          exact (List.mem_append.mp hx).elim (h₂ x) (hack x)
  | other c m _ _ _ => exact ⟨hunsent, hsent⟩

/-- A step of `b` keeps the order: it handles older messages first, then the request. -/
theorem OrderInv.right {Ok : Handling} (hab : a ≠ b) (h : OrderInv a b k)
    (hstep : LeftStep net Ok b a k.swap k') : OrderInv a b k'.swap := by
  obtain ⟨hunsent, hsent⟩ := h
  cases hstep with
  | stmt =>
    constructor
    · simpa [Link.swap, requester_clock_of_ne _ _ hab] using hunsent
    · simpa [Link.swap, requester_clock_of_ne _ _ hab, requester_requestQ_of_ne _ _ hab] using hsent
  | handle m rest hout _ =>
    have hout : k.out = m :: rest := hout
    have hfrom := k.right.handle_clock_sender m.value m.tag hab
    refine ⟨?_, ?_⟩
    · intro t ht hu
      obtain ⟨hclock, hle⟩ := hunsent t ht hu
      rw [hout] at hle
      have hm := hle m List.mem_cons_self
      refine ⟨?_, fun x hx => hle x (List.mem_cons_of_mem _ hx)⟩
      simp only [Link.swap, hfrom]
      omega
    · intro t ht hu
      rcases hsent t ht hu with ⟨hq, hack⟩ | ⟨hclock, l₁, l₂, hl, h₁, h₂⟩
      · rw [hout] at hack
        have hm := hack m List.mem_cons_self
        refine Or.inl ⟨?_, fun x hx => hack x (List.mem_cons_of_mem _ hx)⟩
        simpa [Link.swap, MutexNode.handle, LamportMutex.handleMsg_requestQ, hm] using hq
      · rw [hout] at hl
        -- `b` handles the request, or something older
        rcases l₁ with _ | ⟨x, l₁⟩
        · obtain ⟨rfl, rfl⟩ := List.cons.inj hl
          refine Or.inl ⟨?_, h₂⟩
          simp [Link.swap, MutexNode.handle, LamportMutex.handleMsg_requestQ]
        · obtain ⟨rfl, rfl⟩ := List.cons.inj hl
          have hm := h₁ m List.mem_cons_self
          refine Or.inr ⟨?_, l₁, l₂, rfl, fun x hx => h₁ x (List.mem_cons_of_mem _ hx), h₂⟩
          simp only [Link.swap, hfrom]
          omega
  | other c m hcb hca _ =>
    have hfrom := k.right.handle_clock_of_ne m.value m.tag hab hca.symm
    have hqueue : (k.right.handle b m.value c m.tag).1.lamport.requestQ a =
        k.right.lamport.requestQ a := by
      simp [MutexNode.handle, LamportMutex.handleMsg_requestQ, hca.symm]
    exact ⟨by simpa [Link.swap, hfrom] using hunsent, by simpa [Link.swap, hfrom, hqueue] using hsent⟩

end

theorem orderInv {net : Mesh} {s : State} (hs : Reachable (system net) (handling noOvertake) s)
    {a b : Int} (ha : a ∈ net.cores) (hb : b ∈ net.cores) (hab : a ≠ b) :
    OrderInv a b (s.link a b) :=
  link_invariant (fun _ _ _ => orderInv_init)
    (fun _ _ _ _ hr ha hb hab ih hst =>
      ih.left ((net.mem_peers ha).mpr ⟨hb, hab.symm⟩) (nodeInv hr ha) (linkInv hr ha hb hab) hst)
    (fun _ _ _ _ _ _ _ hab ih hst => ih.right hab hst) hs ha hb hab

/-! ## Entering -/

/-- A node in its critical section has heard from `b` a later clock than its own request. -/
def EnteredInv (a b : Int) (k : Link) : Prop :=
  ∀ t, k.left.pc = .inCS t → isGreater t a (k.left.lamport.clock.getValue b) b = false

/-- A node in its critical section comes before every request that is being made or held. -/
def PriorityInv (a b : Int) (k : Link) : Prop :=
  ∀ t u, k.left.pc = .inCS t → k.right.pc.request? = some u → isGreater t a u b = false

/-- A statement that leads into the critical section is a true `okeyCS` test of a stored request. -/
theorem requester_inCS {peers : List Int} {a t : Int} {n : MutexNode}
    (h : (n.requester peers a).1.pc = .inCS t) :
    n.pc = .wait t ∧ n.lamport.okeyCS peers a = true ∧ (n.requester peers a).1.lamport = n.lamport := by
  obtain ⟨m, pc⟩ := n
  rcases pc with _ | _ | u | ⟨u, _ | ⟨q, todo⟩⟩ | u | _ | _ | ⟨_, _, _ | ⟨q, todo⟩⟩ <;>
    simp only [MutexNode.requester] at h ⊢
  case wait => split at h <;> simp_all
  all_goals simp at h

/-- What a true test says of peer `b`. -/
theorem enter_test {net : Mesh} {a b t : Int} {n : MutexNode} (hbp : b ∈ net.peers a)
    (hn : NodeInv a n) (h : (n.requester (net.peers a) a).1.pc = .inCS t) :
    (∀ u, n.lamport.requestQ b = some u → isGreater t a u b = false) ∧
      isGreater t a (n.lamport.clock.getValue b) b = false ∧
      (n.requester (net.peers a) a).1.lamport = n.lamport := by
  obtain ⟨hpc, hokey, hsame⟩ := requester_inCS h
  have htest := (LamportMutex.okeyCS_iff (hn.own t (by simp [hpc, Pc.own?]))).mp hokey b hbp
  exact ⟨htest.1, htest.2, hsame⟩

section
variable {net : Mesh} {Ok : Handling} {a b : Int} {k k' : Link}

theorem EnteredInv.left (hab : a ≠ b) (hbp : b ∈ net.peers a) (hn : NodeInv a k.left)
    (h : EnteredInv a b k) (hstep : LeftStep net Ok a b k k') : EnteredInv a b k' := by
  intro t ht
  cases hstep with
  | stmt =>
    obtain ⟨-, htest, hsame⟩ := enter_test hbp hn ht
    simpa only [hsame] using htest
  | handle m rest _ _ =>
    have htest := isGreater_eq_false.mp (h t ht)
    rw [k.left.handle_clock_sender _ _ hab.symm, isGreater_eq_false]
    omega
  | other c m hca hcb _ =>
    have htest := h t ht
    rw [k.left.handle_clock_of_ne _ _ hab.symm hcb.symm]
    exact htest

theorem EnteredInv.right (h : EnteredInv a b k) (hstep : LeftStep net Ok b a k.swap k') :
    EnteredInv a b k'.swap := by
  cases hstep <;> exact h

/-- `a` enters: its test compared its request with that of `b`, or with a clock of `b` that is not ahead
    of the request of `b`. -/
theorem PriorityInv.left (hbp : b ∈ net.peers a) (hn : NodeInv a k.left)
    (horder : OrderInv b a k.swap) (h : PriorityInv a b k) (hstep : LeftStep net Ok a b k k') :
    PriorityInv a b k' := by
  intro t u ht hu
  cases hstep with
  | stmt =>
    obtain ⟨hqueue, hclock, -⟩ := enter_test hbp hn ht
    -- where the clock of `b` is not ahead of its request, the test has passed that request too
    have hle : k.left.lamport.clock.getValue b ≤ u → isGreater t a u b = false := by
      intro hle
      rw [isGreater_eq_false] at hclock ⊢
      omega
    cases huns : k.right.pc.unsent a with
    | true => exact hle (horder.unsent u hu huns).1
    | false =>
      rcases horder.sent u hu huns with ⟨hq, -⟩ | ⟨hc, -⟩
      · exact hqueue u hq
      · exact hle hc
  | handle m rest _ _ => exact h t u ht hu
  | other c m _ _ _ => exact h t u ht hu

/-- `b` reads its clock: it is ahead of what `a` had heard of it when it entered. -/
theorem PriorityInv.right (hap : a ∈ net.peers b) (hn : NodeInv b k.right) (hk : LinkInv b a k.swap)
    (hent : EnteredInv a b k) (h : PriorityInv a b k) (hstep : LeftStep net Ok b a k.swap k') :
    PriorityInv a b k'.swap := by
  intro t u ht hu
  cases hstep with
  | stmt =>
    have ht : k.left.pc = .inCS t := ht
    rcases requester_request (a := b) (n := k.right) hap hn.todo with
      ⟨hreq, -, -⟩ | ⟨v, hreq, -, hreq', -, -⟩ | ⟨hreq, -, -⟩ | hreq
    · -- `b` reads its clock, and `a` has heard of no later one
      obtain rfl := Option.some.inj (hreq.symm.trans hu)
      have hentry : k.left.lamport.clock.getValue b ≤ k.right.lamport.clock.getValue b := hk.entry_le
      have htest := isGreater_eq_false.mp (hent t ht)
      rw [isGreater_eq_false]
      omega
    · obtain rfl := Option.some.inj (hreq'.symm.trans hu)
      exact h t v ht hreq
    · exact h t u ht (hreq ▸ hu)
    · exact absurd (hreq.symm.trans hu) (by simp)
  | handle m rest _ _ => exact h t u ht hu
  | other c m _ _ _ => exact h t u ht hu

end

section
variable {net : Mesh} {s : State} {a b : Int}

theorem enteredInv {Ok : Handling} (hs : Reachable (system net) (handling Ok) s) (ha : a ∈ net.cores)
    (hb : b ∈ net.cores) (hab : a ≠ b) : EnteredInv a b (s.link a b) :=
  link_invariant (fun _ _ _ => by simp [EnteredInv, State.link, init, MutexNode.init])
    (fun _ _ _ _ hr ha hb hab ih hst =>
      ih.left hab ((net.mem_peers ha).mpr ⟨hb, hab.symm⟩) (nodeInv hr ha) hst)
    (fun _ _ _ _ _ _ _ _ ih hst => ih.right hst) hs ha hb hab

theorem priorityInv (hs : Reachable (system net) (handling noOvertake) s) (ha : a ∈ net.cores)
    (hb : b ∈ net.cores) (hab : a ≠ b) : PriorityInv a b (s.link a b) := by
  refine link_invariant (fun _ _ _ => by simp [PriorityInv, State.link, init, MutexNode.init])
    ?_ ?_ hs ha hb hab
  · intro s a b k hr ha hb hab ih hst
    have horder : OrderInv b a (s.link a b).swap := orderInv hr hb ha hab.symm
    exact ih.left ((net.mem_peers ha).mpr ⟨hb, hab.symm⟩) (nodeInv hr ha) horder hst
  · intro s a b k hr ha hb hab ih hst
    have hk : LinkInv b a (s.link a b).swap := linkInv hr hb ha hab.symm
    exact ih.right ((net.mem_peers hb).mpr ⟨ha, hab⟩) (nodeInv hr hb) hk (enteredInv hr ha hb hab)
      hst

theorem exclusion (hs : Reachable (system net) (handling noOvertake) s) (ha : a ∈ net.cores)
    (hb : b ∈ net.cores) (hina : (s.node a).pc.isInCS = true) (hinb : (s.node b).pc.isInCS = true) :
    a = b := by
  by_contra hab
  obtain ⟨t, ht⟩ := Pc.isInCS_iff.mp hina
  obtain ⟨u, hu⟩ := Pc.isInCS_iff.mp hinb
  -- each comes before the request of the other, which is impossible
  have hfst := priorityInv hs ha hb hab t u ht (by simp [State.link, hu, Pc.request?])
  have hsnd := priorityInv hs hb ha (Ne.symm hab) u t hu (by simp [State.link, ht, Pc.request?])
  rw [isGreater_eq_false] at hfst hsnd
  omega

end

/-! ## One at a time -/

/-- At most one node is between the return of its `requestCS` and its next `releaseCS`. -/
def MutualExclusion (net : Mesh) (s : State) : Prop :=
  ∀ a ∈ net.cores, ∀ b ∈ net.cores,
    (s.node a).pc.isInCS = true → (s.node b).pc.isInCS = true → a = b

/-- **Mutual exclusion.** In every run in which no node handles a `REQUEST` of a peer between reading its
    clock and sending its own `REQUEST` to that peer, at most one node is in its critical section. -/
theorem mutual_exclusion (net : Mesh) (s : State)
    (hs : Reachable (system net) (handling noOvertake) s) : MutualExclusion net s :=
  fun _ ha _ hb hina hinb => exclusion hs ha hb hina hinb

/-- Both nodes ask at the same time, and both send before they handle the `REQUEST` of the other: node `1`
    gets the critical section, and the test of node `2` fails. -/
def quietRun : List Label :=
  [.requester 1, .requester 2, .requester 1, .requester 2, .requester 1, .requester 2, .requester 1,
    .requester 2, .requester 1, .requester 2, .handle 2 1, .handle 1 2, .handle 1 2, .handle 2 1,
    .requester 2, .requester 1]

theorem mutual_exclusion_quietRun :
    ∃ s, Reachable (system Mesh.two) (handling noOvertake) s ∧
      (s.node 1).pc.isInCS = true ∧ (s.node 2).pc.isWait = true ∧ MutualExclusion Mesh.two s := by
  obtain ⟨s, -, hs, hP⟩ := Reachable.of_exec (system Mesh.two) (handling noOvertake) init quietRun
    (fun s => (s.node 1).pc.isInCS && (s.node 2).pc.isWait) rfl (by decide)
  rw [Bool.and_eq_true] at hP
  exact ⟨s, hs, hP.1, hP.2, mutual_exclusion _ s hs⟩

/-- Node `1` reads its clock, then handles the `REQUEST` of node `2`; its `ACK` lets node `2` enter, and
    its own, older `REQUEST`, sent last, lets node `1` enter as well. -/
def overtakeRun : List Label :=
  [.requester 1, .requester 1,
    .requester 2, .requester 2, .requester 2, .requester 2, .requester 2,
    .handle 1 2, .handle 2 1, .requester 2,
    .requester 1, .requester 1, .requester 1, .handle 2 1, .handle 1 2, .requester 1]

/-- Without the condition two nodes can be in their critical sections at once. -/
theorem mutual_exclusion_fails :
    ∃ s, exec (system Mesh.two) anyStep init overtakeRun = some s ∧
      Reachable (system Mesh.two) anyStep s ∧
      ¬ MutualExclusion Mesh.two s := by
  obtain ⟨s, hrun, hs, hin⟩ := Reachable.of_exec (system Mesh.two)
    anyStep init overtakeRun (fun s => (s.node 1).pc.isInCS && (s.node 2).pc.isInCS) rfl (by decide)
  rw [Bool.and_eq_true] at hin
  refine ⟨s, hrun, hs, ?_⟩
  intro h
  exact absurd (h 1 (by decide) 2 (by decide) hin.1 hin.2) (by decide)

end Mutex
end Epidemica
