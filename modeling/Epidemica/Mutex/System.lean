import Epidemica.Mutex.LamportMutex
import Epidemica.Lib.Transition

/-!
# `Mutex.System` — the mutexes of a core layer and their channels

A step is one statement of a requester's thread or one `HandleMsg` call on the oldest message of a
connection. Everything the invariants speak of is seen from one ordered pair of nodes, so a step is also
described on a **link**: two nodes and the two queues between them (`link_step`).
-/

namespace Epidemica
namespace Mutex

open Network Transition

/-- The nodes and the messages in flight: `chan q p` is the connection from `q` to `p`. -/
@[ext] structure State where
  node : Int → MutexNode
  chan : Channels Int Msg

/-- The steps of the mutexes. -/
inductive Label where
  /-- The requester's thread of `p` executes its next statement. -/
  | requester (p : Int)
  /-- `p` handles the oldest message from `q`. -/
  | handle (p q : Int)
  deriving DecidableEq, Repr

/-- Clock `1` and an empty queue everywhere, and nothing in flight. -/
def init : State := ⟨MutexNode.init, fun _ _ => []⟩

/-- Node `p` becomes `r.1` and sends `r.2`. -/
def State.put (s : State) (p : Int) (r : MutexNode × Outs) : State :=
  ⟨Function.update s.node p r.1, sendAll s.chan p r.2⟩

/-- A step of the mutexes: connections deliver in the order of sending. -/
def step (net : Mesh) (s : State) : Label → Option State
  | .requester p =>
    if p ∈ net.cores then some (s.put p ((s.node p).requester (net.peers p) p)) else none
  | .handle p q =>
    if p ∈ net.cores ∧ q ∈ net.peers p then
      match s.chan q p with
      | [] => none
      | m :: _ =>
        some (State.put { s with chan := receive s.chan q p 0 } p
          ((s.node p).handle p m.value q m.tag))
    else none

/-- The mutexes of a core layer, from own clock `1` and an empty queue everywhere. -/
def system (net : Mesh) : System State Label := ⟨fun s => s = init, step net⟩

/-- A condition on the messages a node handles: `Ok p n q m` admits node `p`, in state `n`, handling
    message `m` of `q`. -/
abbrev Handling := Int → MutexNode → Int → Msg → Prop

/-- No condition on handled messages. -/
def anyMessage : Handling := fun _ _ _ _ => True

/-- The guard that every handled message meets `Ok`. -/
def handling (Ok : Handling) : Guard State Label
  | s, .handle p q => ∀ m ∈ (s.chan q p).head?, Ok p (s.node p) q m
  | _, .requester _ => True

instance {Ok : Handling} [∀ p n q m, Decidable (Ok p n q m)] :
    ∀ s l, Decidable (handling Ok s l)
  | s, .handle p q => inferInstanceAs (Decidable (∀ m ∈ (s.chan q p).head?, Ok p (s.node p) q m))
  | _, .requester _ => isTrue trivial

theorem handling_anyMessage (s : State) (l : Label) : handling anyMessage s l := by
  cases l with
  | requester p => trivial
  | handle p q => exact fun _ _ => trivial

/-! ## Inversion -/

section
variable {net : Mesh} {s t : State} {p q : Int}

theorem step_requester (h : step net s (.requester p) = some t) :
    p ∈ net.cores ∧ t = s.put p ((s.node p).requester (net.peers p) p) := by
  simp only [step] at h
  split at h
  · exact ⟨‹_›, (Option.some.inj h).symm⟩
  · exact absurd h (by simp)

theorem step_handle (h : step net s (.handle p q) = some t) :
    p ∈ net.cores ∧ q ∈ net.peers p ∧ ∃ m rest, s.chan q p = m :: rest ∧
      t = State.put { s with chan := receive s.chan q p 0 } p
        ((s.node p).handle p m.value q m.tag) := by
  simp only [step] at h
  split at h
  · rename_i hpq
    split at h
    · exact absurd h (by simp)
    · rename_i m rest hc
      exact ⟨hpq.1, hpq.2, m, rest, hc, (Option.some.inj h).symm⟩
  · exact absurd h (by simp)

end

@[simp] theorem put_node (s : State) (p : Int) (r : MutexNode × Outs) (a : Int) :
    (s.put p r).node a = if a = p then r.1 else s.node a := by
  by_cases h : a = p <;> simp [State.put, h]

@[simp] theorem put_chan (s : State) (p : Int) (r : MutexNode × Outs) (a b : Int) :
    (s.put p r).chan a b = if a = p then s.chan a b ++ select b r.2 else s.chan a b :=
  sendAll_apply _ _ _ _ _

/-- A statement or a handled message: all that can happen to one node. The sender of a handled message
    is always another node. -/
inductive NodeStep (net : Mesh) (Ok : Handling) (p : Int) (n : MutexNode) : MutexNode → Prop where
  | stmt : NodeStep net Ok p n (n.requester (net.peers p) p).1
  | handle (q : Int) (m : Msg) : q ≠ p → Ok p n q m →
      NodeStep net Ok p n (n.handle p m.value q m.tag).1

/-- A step changes no node or takes one node step. -/
theorem node_step {net : Mesh} {Ok : Handling} {s t : State} {l : Label} (hg : handling Ok s l)
    (h : step net s l = some t) (a : Int) :
    t.node a = s.node a ∨ NodeStep net Ok a (s.node a) (t.node a) := by
  cases l with
  | requester p =>
    obtain ⟨-, rfl⟩ := step_requester h
    by_cases ha : a = p
    · subst ha
      simpa using Or.inr NodeStep.stmt
    · simp [ha]
  | handle p q =>
    obtain ⟨hp, hq, m, rest, hc, rfl⟩ := step_handle h
    by_cases ha : a = p
    · subst ha
      have hok : Ok a (s.node a) q m := hg m (by simp [hc])
      simpa using Or.inr (NodeStep.handle q m ((net.mem_peers hp).mp hq).2 hok)
    · simp [ha]

/-! ## Links -/

/-- What nodes `a` and `b` are to each other: `out` is in flight from `a` to `b`, `back` from `b` to
    `a`. -/
structure Link where
  left : MutexNode
  right : MutexNode
  out : List Msg
  back : List Msg

/-- The link of two nodes of a state. -/
def State.link (s : State) (a b : Int) : Link := ⟨s.node a, s.node b, s.chan a b, s.chan b a⟩

/-- The link seen from the other end. -/
def Link.swap (k : Link) : Link := ⟨k.right, k.left, k.back, k.out⟩

/-- What a step does to the link of `a` and `b` on the side of `a`. -/
inductive LeftStep (net : Mesh) (Ok : Handling) (a b : Int) (k : Link) : Link → Prop where
  /-- The requester's thread of `a` takes a step. -/
  | stmt : LeftStep net Ok a b k
      { k with
        left := (k.left.requester (net.peers a) a).1
        out := k.out ++ select b (k.left.requester (net.peers a) a).2 }
  /-- `a` handles a message of `b`. -/
  | handle (m : Msg) (rest : List Msg) : k.back = m :: rest → Ok a k.left b m →
      LeftStep net Ok a b k
        { k with
          left := (k.left.handle a m.value b m.tag).1
          out := k.out ++ select b (k.left.handle a m.value b m.tag).2
          back := rest }
  /-- `a` handles a message of a third node. -/
  | other (c : Int) (m : Msg) : c ≠ a → c ≠ b → Ok a k.left c m →
      LeftStep net Ok a b k { k with left := (k.left.handle a m.value c m.tag).1 }

/-- A step on one side leaves the node on the other side alone. -/
theorem LeftStep.right_eq {net : Mesh} {Ok : Handling} {a b : Int} {k k' : Link}
    (h : LeftStep net Ok a b k k') : k'.right = k.right := by
  cases h <;> rfl

/-- A step leaves a link as it was, or is a step of one of its two ends. -/
theorem link_step {net : Mesh} {Ok : Handling} {s t : State} {l : Label} (hg : handling Ok s l)
    (h : step net s l = some t) {a b : Int} (hab : a ≠ b) :
    t.link a b = s.link a b ∨ LeftStep net Ok a b (s.link a b) (t.link a b) ∨
      LeftStep net Ok b a (s.link a b).swap (t.link a b).swap := by
  cases l with
  | requester p =>
    obtain ⟨-, rfl⟩ := step_requester h
    by_cases ha : a = p
    · subst ha
      refine Or.inr (Or.inl ?_)
      have hstep : LeftStep net Ok a b (s.link a b) _ := LeftStep.stmt
      simpa [State.link, hab.symm] using hstep
    · by_cases hb : b = p
      · subst hb
        refine Or.inr (Or.inr ?_)
        have hstep : LeftStep net Ok b a (s.link a b).swap _ := LeftStep.stmt
        simpa [State.link, Link.swap, hab] using hstep
      · simp [State.link, ha, hb]
  | handle p q =>
    obtain ⟨hp, hq, m, rest, hc, rfl⟩ := step_handle h
    have hqp : q ≠ p := ((net.mem_peers hp).mp hq).2
    have hok : Ok p (s.node p) q m := hg m (by simp [hc])
    -- the handler answers `q` only, so a link to a third node sees no message
    have hdest : ∀ c, c ≠ q → select c ((s.node p).handle p m.value q m.tag).2 = [] := by
      intro c hcq
      simp only [MutexNode.handle, LamportMutex.handleMsg_outs]
      split <;> simp [Ne.symm hcq]
    by_cases ha : a = p
    · subst ha
      refine Or.inr (Or.inl ?_)
      by_cases hb : b = q
      · subst hb
        have hstep : LeftStep net Ok a b (s.link a b) _ := LeftStep.handle m rest hc hok
        simpa [State.link, receive_apply, hab, hab.symm, hc] using hstep
      · have hstep : LeftStep net Ok a b (s.link a b) _ :=
          LeftStep.other q m hqp (Ne.symm hb) hok
        simpa [State.link, receive_apply, hab, hab.symm, hdest b hb, hb] using hstep
    · by_cases hb : b = p
      · subst hb
        refine Or.inr (Or.inr ?_)
        by_cases haq : a = q
        · subst haq
          have hstep : LeftStep net Ok b a (s.link a b).swap _ := LeftStep.handle m rest hc hok
          simpa [State.link, Link.swap, receive_apply, hab, hab.symm, hc] using hstep
        · have hstep : LeftStep net Ok b a (s.link a b).swap _ :=
            LeftStep.other q m hqp (Ne.symm haq) hok
          simpa [State.link, Link.swap, receive_apply, hab, hab.symm, hdest a haq, haq] using hstep
      · simp [State.link, receive_apply, ha, hb]

/-- Invariant rule for links: it is enough to look at the steps of either end. -/
theorem link_invariant {net : Mesh} {Ok : Handling} {I : Int → Int → Link → Prop}
    (hinit : ∀ a b, a ≠ b → I a b (init.link a b))
    (hleft : ∀ s a b k, Reachable (system net) (handling Ok) s → a ∈ net.cores → b ∈ net.cores →
      a ≠ b → I a b (s.link a b) → LeftStep net Ok a b (s.link a b) k → I a b k)
    (hright : ∀ s a b k, Reachable (system net) (handling Ok) s → a ∈ net.cores → b ∈ net.cores →
      a ≠ b → I a b (s.link a b) → LeftStep net Ok b a (s.link b a) k → I a b k.swap)
    {s : State} (hs : Reachable (system net) (handling Ok) s) {a b : Int} (ha : a ∈ net.cores)
    (hb : b ∈ net.cores) (hab : a ≠ b) : I a b (s.link a b) := by
  refine Reachable.invariant (I := fun s => I a b (s.link a b)) ?_ ?_ hs
  · rintro s rfl
    exact hinit a b hab
  · intro s l t hr ih hg hst
    rcases link_step hg hst hab with heq | hl | hl
    · rw [heq]; exact ih
    · exact hleft s a b _ hr ha hb hab ih hl
    · exact hright s a b _ hr ha hb hab ih hl

end Mutex
end Epidemica
