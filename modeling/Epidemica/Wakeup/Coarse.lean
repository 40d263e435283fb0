import Epidemica.Wakeup.System
import Epidemica.Core.Steps

/-!
# `Wakeup.Coarse` — runs of the core layer as runs statement by statement

In `Core.System` a message is handled in one step, and a client thread at a wait simply tests again. Each
such run is a run of the finer system: the handler calls are not interrupted, and no thread ever goes to
block. So whatever the core layer can reach, the finer system can reach too.
-/

namespace Epidemica

open Network Transition

namespace Wakeup

variable {net : Mesh} {s : State} {p : Int}

/-- Between handler calls, with no thread about to block. -/
def ofCore (s : Core.State) : State := ⟨fun p => ⟨s.node p, .running, []⟩, s.chan⟩

theorem ofCore_put (s : Core.State) (p : Int) (r : CoreNode × Outs) :
    (ofCore s).put p ⟨r.1, .running, []⟩ r.2 = ofCore (s.put p r) := by
  refine congrArg₂ State.mk ?_ rfl
  funext a
  by_cases ha : a = p
  · subst ha
    simp [ofCore]
  · simp [ofCore, ha]

theorem put_self (s : State) (p : Int) : s.put p (s.node p) [] = s := by
  refine congrArg₂ State.mk ?_ rfl
  exact Function.update_eq_self p s.node

theorem put_put (s : State) (p : Int) (n₁ n₂ : Node) (o₁ o₂ : Outs) :
    (s.put p n₁ o₁).put p n₂ o₂ = s.put p n₂ (o₁ ++ o₂) := by
  refine congrArg₂ State.mk ?_ ?_
  · exact Function.update_idem _ _ _
  · exact (sendAll_append _ _ _ _).symm

/-- A handler call that is not interrupted is a run. -/
theorem run_handler {k : Nat} {n : CoreNode} {ops : List Op} {r : CoreNode × Outs}
    (hp : p ∈ net.cores) (hnode : s.node p = ⟨n, .running, ops⟩)
    (hrun : n.runOps (net.layers p) p k ops = some r) :
    Run (system net) anyStep s (s.put p ⟨r.1, .running, []⟩ r.2) := by
  induction k generalizing s n ops r with
  | zero =>
    cases ops with
    | nil =>
      obtain rfl := Option.some.inj hrun
      rw [← hnode, put_self]
      exact Run.refl
    | cons op rest => exact absurd hrun (by simp [CoreNode.runOps])
  | succ k ih =>
    cases ops with
    | nil =>
      obtain rfl := Option.some.inj hrun
      rw [← hnode, put_self]
      exact Run.refl
    | cons op rest =>
      obtain ⟨r', hrest, rfl⟩ := Option.map_eq_some_iff.mp hrun
      -- one statement, and then what is left of the call
      have hfirst : step net s (.handler p) =
          some (s.put p ⟨(n.execOp (net.layers p) p op).node, .running,
            (n.execOp (net.layers p) p op).branch ++ rest⟩ (n.execOp (net.layers p) p op).outs) := by
        simp only [step, if_pos hp, hnode, Node.handler, Option.map_some, ite_self]
      have hrun' := ih (s := s.put p ⟨(n.execOp (net.layers p) p op).node, .running,
        (n.execOp (net.layers p) p op).branch ++ rest⟩ (n.execOp (net.layers p) p op).outs)
        (by simp) hrest
      rw [put_put] at hrun'
      exact (Run.single (l := .handler p) trivial hfirst).trans hrun'

/-- A step of the core layer is a run. -/
theorem run_of_core_step {s t : Core.State} {l : Core.Label}
    (h : Core.step net.cores net.layers s l = some t) :
    Run (system net) anyStep (ofCore s) (ofCore t) := by
  cases l with
  | submit p d =>
    obtain ⟨hp, hidle, rfl⟩ := Core.step_submit h
    apply Run.single (l := .submit p d) trivial
    show step net (ofCore s) (.submit p d) = _
    rw [← ofCore_put]
    exact if_pos ⟨hp, hidle⟩
  | requester p =>
    obtain ⟨hp, hbusy, rfl⟩ := Core.step_requester h
    by_cases htest : (s.node p).standing = true ∧ ¬ (s.node p).wakes (net.layers p) p
    · -- the thread tests again later; nothing happens now
      have hsame : ofCore (s.put p (s.node p, [])) = ofCore s := by
        rw [← ofCore_put]
        exact put_self (ofCore s) p
      rw [CoreNode.requester_of_not_wakes htest.1 htest.2, hsame]
      exact Run.refl
    · apply Run.single (l := .client p) trivial
      show step net (ofCore s) (.client p) = _
      rw [← ofCore_put]
      have hclient : ((ofCore s).node p).client (net.layers p) p =
          some (⟨((s.node p).requester (net.layers p) p).1, .running, []⟩,
            ((s.node p).requester (net.layers p) p).2) := if_neg htest
      have hcond : p ∈ net.cores ∧ ((ofCore s).node p).core.idle = false := ⟨hp, hbusy⟩
      simp only [step, if_pos hcond, hclient, Option.map_some]
  | handle p q i =>
    obtain ⟨hp, hq, m, hm, rfl⟩ := Core.step_handle h
    -- the message is taken from the connection, and the call runs to its end
    have hcall : step net (ofCore s) (.call p q i) =
        some ((ofCore (s.take q p i)).put p ⟨s.node p, .running, handlerOps m q⟩ []) := by
      have hchan : ((ofCore s).chan q p)[i]? = some m := hm
      have hcond : p ∈ net.cores ∧ q ∈ net.peers p ∧ ((ofCore s).node p).call = [] := ⟨hp, hq, rfl⟩
      simp only [step, if_pos hcond, hchan]
      rfl
    refine (Run.single (l := .call p q i) trivial hcall).trans ?_
    have hrun := run_handler (p := p)
      (s := (ofCore (s.take q p i)).put p ⟨s.node p, .running, handlerOps m q⟩ [])
      (n := s.node p) hp (by simp)
      (runOps_handlerOps m q)
    rw [put_put, List.nil_append, ofCore_put] at hrun
    exact hrun
  | drain p b =>
    obtain ⟨hb, hne, rfl⟩ := Core.step_drain net.layers h
    apply Run.single (l := .drain p b) trivial
    exact if_pos ⟨hb, hne⟩

/-- The core layer is simulated statement by statement. -/
def ofCoreSim (net : Mesh) : Simulation (Core.system net) anyStep (system net) anyStep where
  abs := ofCore
  init s hs := by
    obtain rfl : s = Core.init := hs
    rfl
  step _ _ _ _ _ hst := run_of_core_step hst

/-- What the core layer can reach, the finer system can reach. -/
theorem reachable_ofCore {s : Core.State} (hs : Reachable (Core.system net) anyStep s) :
    Reachable (system net) anyStep (ofCore s) :=
  (ofCoreSim net).reachable hs

end Wakeup
end Epidemica
