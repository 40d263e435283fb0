import Epidemica.Mutex.Invariants

/-!
# `Mutex.Causality` — a request already handled goes first

Once `p` has handled a `REQUEST` of `q`, the queue of `p` holds it and the clock of `p` is past it
(`Held`). Only the `RELEASE` that ends it takes it out: another `REQUEST` of `q` cannot come first, since
the queue mirrors what `q` has sent (`LinkInv.mirror`). A request of `p` whose ticks are read while it is
held therefore fails every `okeyCS` test (`causal_fcfs`), in any interleaving.
-/

namespace Epidemica
namespace Mutex

open Network Transition

/-- The request `t` of `q` stands in the queue of `p`, whose clock is past it. -/
def Held (p q t : Int) (n : MutexNode) : Prop :=
  n.lamport.requestQ q = some t ∧ t < n.lamport.clock.getValue p

/-- The thread of `p` is on its way into a critical section, with ticks after `t`. -/
def Behind (t : Int) (n : MutexNode) : Prop :=
  (∃ u, t < u ∧ n.pc = .store u) ∨ (∃ u todo, t < u ∧ n.pc = .sendRequest u todo) ∨
    ∃ u, t < u ∧ n.pc = .wait u

/-- `p` handles no `RELEASE` of `q`. -/
def noRelease (p q : Int) : Handling := fun p' _ q' m => p' = p → q' = q → m.tag ≠ .release

instance (p q p' : Int) (n : MutexNode) (q' : Int) (m : Msg) : Decidable (noRelease p q p' n q' m) :=
  inferInstanceAs (Decidable (_ → _ → _))

section
variable {net : Mesh} {p q t : Int}

/-- Handling a `REQUEST` makes it held. -/
theorem held_handle {m : Msg} {n : MutexNode} (hqp : q ≠ p) (hm : m.tag = .request) :
    Held p q m.value (n.handle p m.value q m.tag).1 := by
  refine ⟨?_, ?_⟩
  · simp [MutexNode.handle, LamportMutex.handleMsg_requestQ, hm]
  · rw [MutexNode.handle_clock_self _ _ _ hqp]
    omega

/-- A held request stays held until its `RELEASE` is handled. -/
theorem Held.step {k k' : Link} (hpq : p ≠ q) (hk : LinkInv q p k.swap) (h : Held p q t k.left)
    (hstep : LeftStep net (noRelease p q) p q k k') : Held p q t k'.left := by
  obtain ⟨hq, ht⟩ := h
  cases hstep with
  | stmt =>
    refine ⟨(requester_requestQ_of_ne _ _ hpq.symm).trans hq, ?_⟩
    exact Int.lt_of_lt_of_le ht (requester_clock_self_le _ _ _)
  | handle m rest hback hok =>
    -- the guard excludes a `RELEASE`, and the mirror of the queue a second `REQUEST`
    have hrel : m.tag ≠ .release := hok rfl rfl
    have hmirror : view (some t) (m :: rest) = some (k.right.pc.told p) := by
      have := hk.mirror
      simp only [Link.swap, hback, hq] at this
      exact this
    have hreq : m.tag ≠ .request := by
      intro hm
      simp [view, hm] at hmirror
    refine ⟨?_, ?_⟩
    · simpa [MutexNode.handle, LamportMutex.handleMsg_requestQ, hrel, hreq] using hq
    · rw [MutexNode.handle_clock_self _ _ _ hpq.symm]
      omega
  | other c m hc hcq _ =>
    refine ⟨?_, ?_⟩
    · simpa [MutexNode.handle, LamportMutex.handleMsg_requestQ, hcq.symm] using hq
    · rw [MutexNode.handle_clock_self _ _ _ hc]
      omega

/-- The test of a later request fails while the earlier one is held. -/
theorem okeyCS_eq_false {n : MutexNode} {u : Int} (hq : q ∈ net.peers p) (hn : NodeInv p n)
    (h : Held p q t n) (htu : t < u) (hpc : n.pc = .wait u) :
    n.lamport.okeyCS (net.peers p) p = false := by
  rw [← Bool.not_eq_true, LamportMutex.okeyCS_iff (hn.own u (by simp [hpc, Pc.own?]))]
  intro hall
  have htest := (hall q hq).1 t h.1
  rw [isGreater_eq_false] at htest
  omega

/-- A later request does not get past its wait while the earlier one is held. -/
theorem Behind.step {Ok : Handling} {n n' : MutexNode} (hq : q ∈ net.peers p) (hn : NodeInv p n)
    (h : Held p q t n) (hb : Behind t n) (hstep : NodeStep net Ok p n n') : Behind t n' := by
  cases hstep with
  | handle c m _ _ => exact hb
  | stmt =>
    rcases hb with ⟨u, hu, hpc⟩ | ⟨u, todo, hu, hpc⟩ | ⟨u, hu, hpc⟩
    · exact Or.inr (Or.inl ⟨u, net.peers p, hu, by simp [MutexNode.requester, hpc]⟩)
    · cases todo with
      | nil => exact Or.inr (Or.inr ⟨u, hu, by simp [MutexNode.requester, hpc]⟩)
      | cons r todo => exact Or.inr (Or.inl ⟨u, todo, hu, by simp [MutexNode.requester, hpc]⟩)
    · -- at the wait: the test is false, so the thread stays there
      have hfalse := okeyCS_eq_false hq hn h hu hpc
      exact Or.inr (Or.inr ⟨u, hu, by simp [MutexNode.requester, hpc, hfalse]⟩)

/-- Along a run in which `p` handles no `RELEASE` of `q`, a held request stays held. -/
theorem Held.run {s s' : State} (hp : p ∈ net.cores) (hq : q ∈ net.cores) (hpq : p ≠ q)
    (hs : Reachable (system net) (handling anyMessage) s) (h : Held p q t (s.node p))
    (hrun : Run (system net) (handling (noRelease p q)) s s') :
    Reachable (system net) (handling anyMessage) s' ∧ Held p q t (s'.node p) := by
  refine Run.preserves (I := fun s => Reachable (system net) (handling anyMessage) s ∧
    Held p q t (s.node p)) ?_ hrun ⟨hs, h⟩
  rintro s l s' ⟨hr, hheld⟩ hg hst
  refine ⟨hr.step (handling_anyMessage s l) hst, ?_⟩
  show Held p q t (s'.link p q).left
  rcases link_step hg hst hpq with heq | hl | hl
  · rw [heq]
    exact hheld
  · -- only a step of `p` touches what `p` holds of `q`
    have hk : LinkInv q p (s.link p q).swap := linkInv hr hq hp hpq.symm
    exact Held.step (k := s.link p q) hpq hk hheld hl
  · have hsame : (s'.link p q).left = (s.link p q).left := hl.right_eq
    rw [hsame]
    exact hheld

/-- Along such a run a later request does not get past its wait. -/
theorem Behind.run {s s' : State} (hp : p ∈ net.cores) (hq : q ∈ net.cores) (hpq : p ≠ q)
    (hs : Reachable (system net) (handling anyMessage) s) (h : Held p q t (s.node p))
    (hb : Behind t (s.node p)) (hrun : Run (system net) (handling (noRelease p q)) s s') :
    Behind t (s'.node p) := by
  have hqp : q ∈ net.peers p := (net.mem_peers hp).mpr ⟨hq, hpq.symm⟩
  induction hrun with
  | refl => exact hb
  | tail hr hg hst ih =>
    obtain ⟨hreach, hheld⟩ := Held.run hp hq hpq hs h hr
    rcases node_step hg hst p with heq | hstep
    · rw [heq]
      exact ih
    · exact ih.step hqp (nodeInv hreach hp) hheld hstep

end

/-- **Causal first come, first served.** Suppose `p` handles a `REQUEST` of `q`, later reads its clock
    for a request of its own, and handles no `RELEASE` of `q` from the one to any time after the other.
    Then `p` has not entered its critical section, and wherever it stands at its wait, `okeyCS` is
    false. -/
theorem causal_fcfs (net : Mesh) (p q : Int) (s₀ s₁ s₂ s₃ s₄ : State)
    (hs : Reachable (system net) anyStep s₀)
    (hreq : (s₀.chan q p).head?.map Msg.tag = some .request)
    (hhandle : step net s₀ (.handle p q) = some s₁)
    (h₁₂ : Run (system net) (handling (noRelease p q)) s₁ s₂)
    (hpc : (s₂.node p).pc = .getValue)
    (hget : step net s₂ (.requester p) = some s₃)
    (h₃₄ : Run (system net) (handling (noRelease p q)) s₃ s₄) :
    (s₄.node p).pc.isInCS = false ∧
      ∀ u, (s₄.node p).pc = .wait u → (s₄.node p).lamport.okeyCS (net.peers p) p = false := by
  have hs : Reachable (system net) (handling anyMessage) s₀ :=
    hs.mono fun s l _ => handling_anyMessage s l
  obtain ⟨hp, hqp, m, rest, hc, heq⟩ := step_handle hhandle
  obtain ⟨hq, hne⟩ := (net.mem_peers hp).mp hqp
  have hm : m.tag = .request := by simpa [hc] using hreq
  have hs₁ : Reachable (system net) (handling anyMessage) s₁ :=
    hs.step (l := .handle p q) (handling_anyMessage _ _) hhandle
  have hheld₁ : Held p q m.value (s₁.node p) := by
    rw [heq, put_node, if_pos rfl]
    exact held_handle hne hm
  -- held up to the own `requestCS`, whose ticks are read behind it, and from there on
  obtain ⟨hs₂, hheld₂⟩ := Held.run hp hq hne.symm hs₁ hheld₁ h₁₂
  have hs₃ : Reachable (system net) (handling anyMessage) s₃ :=
    hs₂.step (l := .requester p) (handling_anyMessage _ _) hget
  obtain ⟨-, rfl⟩ := step_requester hget
  have hnode : (s₂.put p ((s₂.node p).requester (net.peers p) p)).node p =
      { s₂.node p with pc := .store ((s₂.node p).lamport.clock.getValue p) } := by
    simp [MutexNode.requester, hpc]
  have hheld₃ : Held p q m.value
      ((s₂.put p ((s₂.node p).requester (net.peers p) p)).node p) := by
    rw [hnode]
    exact hheld₂
  have hbehind : Behind m.value
      ((s₂.put p ((s₂.node p).requester (net.peers p) p)).node p) := by
    rw [hnode]
    exact Or.inl ⟨_, hheld₂.2, rfl⟩
  obtain ⟨hs₄, hheld₄⟩ := Held.run hp hq hne.symm hs₃ hheld₃ h₃₄
  have hb₄ := Behind.run hp hq hne.symm hs₃ hheld₃ hbehind h₃₄
  refine ⟨?_, ?_⟩
  · rcases hb₄ with ⟨u, -, hpc₄⟩ | ⟨u, todo, -, hpc₄⟩ | ⟨u, -, hpc₄⟩ <;> simp [hpc₄, Pc.isInCS]
  · intro u hu
    have htu : m.value < u := by
      rcases hb₄ with ⟨v, hv, hpc₄⟩ | ⟨v, todo, hv, hpc₄⟩ | ⟨v, hv, hpc₄⟩ <;>
        simp_all
    exact okeyCS_eq_false hqp (nodeInv hs₄ hp) hheld₄ htu hu

/-! A run of two nodes: node `2` sends its `REQUEST`, node `1` handles it, ticks and reads its clock. -/

/-- Node `2` has sent its `REQUEST`. -/
def asked : State :=
  execGet (system Mesh.two) anyStep init
    [.requester 2, .requester 2, .requester 2, .requester 2] (by decide)

/-- Node `1` has handled it. -/
def handled : State := (step Mesh.two asked (.handle 1 2)).get (by decide)

/-- Node `1` has ticked. -/
def ticked : State :=
  execGet (system Mesh.two) (handling (noRelease 1 2)) handled [.requester 1] (by decide)

/-- Node `1` has read its clock. -/
def read : State := (step Mesh.two ticked (.requester 1)).get (by decide)

/-- Node `1` has sent its own `REQUEST`, and waits. -/
def waiting : State :=
  execGet (system Mesh.two) (handling (noRelease 1 2)) read
    [.requester 1, .requester 1, .requester 1] (by decide)

theorem causal_fcfs_waiting :
    (waiting.node 1).pc = .wait 4 ∧
      (waiting.node 1).lamport.okeyCS (Mesh.two.peers 1) 1 = false :=
  have hpc : (waiting.node 1).pc = .wait 4 := by decide
  ⟨hpc, (causal_fcfs Mesh.two 1 2 asked handled ticked read waiting ⟨init, rfl, Run.execGet ..⟩
    (by decide) (Option.some_get _).symm (Run.execGet ..) (by decide) (Option.some_get _).symm
    (Run.execGet ..)).2 4 hpc⟩

end Mutex
end Epidemica
