import Epidemica.Wakeup.System

/-!
# `Wakeup.LostWakeup` — when no wake-up is lost

A handler call announces what it changes: behind every statement that writes what a wait reads stands the
notify of that wait (`Announced`). So while a client thread stands at a wait whose predicate has become
true, the call that made it true has its notify still to come (`WakeInv`), unless that notify has been
executed in the gap between a false test and the block. The guard `noLostNotify` excludes this gap, and a
run through the gap loses the wake-up (`lost_wakeup`).
-/

namespace Epidemica

open Network Transition

/-- The notify that a statement calls for: that of the wait which reads what the statement writes. -/
def Op.announce : Op → Option Op
  | .recieveAction _ _ | .store _ _ | .erase _ => some .notifyWait
  | .incFinished => some .notifyTransaction
  | _ => none

/-- Behind each statement stands the notify it calls for. -/
def Announced : List Op → Prop
  | [] => True
  | op :: rest => (∀ a ∈ op.announce, a ∈ rest) ∧ Announced rest

theorem announced_handlerOps (m : Msg) (src : Int) : Announced (handlerOps m src) := by
  obtain ⟨tag, v⟩ := m
  cases tag <;> simp [handlerOps, mutexOps, Announced, Op.announce]

namespace CoreNode

variable {L : Layers} {me : Int} {n : CoreNode} {op : Op}

/-- No statement of a handler moves the client thread. -/
theorem execOp_frame (L : Layers) (me : Int) (n : CoreNode) (op : Op) :
    (n.execOp L me op).node.mutex.pc = n.mutex.pc ∧ (n.execOp L me op).node.cs = n.cs := by
  cases op <;> exact ⟨rfl, rfl⟩

theorem execOp_notifies (a : Op) : a.notifies (n.execOp L me op).node = a.notifies n := by
  obtain ⟨hpc, hcs⟩ := execOp_frame L me n op
  cases a <;> simp only [Op.notifies, hpc, hcs]

theorem execOp_standing : (n.execOp L me op).node.standing = n.standing := by
  obtain ⟨hpc, hcs⟩ := execOp_frame L me n op
  simp only [standing, hpc, hcs]

/-- A statement that calls for no notify of the wait at which the thread stands does not change the
    predicate of that wait. -/
theorem execOp_wakes (h : ∀ a ∈ op.announce, a.notifies n = false) :
    (n.execOp L me op).node.wakes L me ↔ n.wakes L me := by
  cases op with
  | recieveAction src message =>
    have hwait : n.mutex.pc.isWait = false := h _ rfl
    simp [wakes, execOp, hwait]
  | store src message =>
    have hwait : n.mutex.pc.isWait = false := h _ rfl
    simp [wakes, execOp, hwait]
  | erase src =>
    have hwait : n.mutex.pc.isWait = false := h _ rfl
    simp [wakes, execOp, hwait]
  | incFinished =>
    -- the count is read by the wait for the `READY`s only
    have hready : ¬ (n.mutex.pc.isInCS = true ∧ n.cs = .waitReady) := by
      simpa [Op.notifies] using h _ rfl
    have hnot : ∀ P : Prop, ¬ (n.mutex.pc.isInCS = true ∧ n.cs = .waitReady ∧ P) :=
      fun P hP => hready ⟨hP.1, hP.2.1⟩
    simp only [wakes, execOp, hnot, or_false]
  | _ => exact Iff.rfl

/-- What a branch puts in front calls for no notify. -/
theorem execOp_announced {rest : List Op} (h : Announced (op :: rest)) :
    Announced ((n.execOp L me op).branch ++ rest) := by
  have hrest : Announced rest := h.2
  cases op with
  | testCount =>
    simp only [execOp]
    split
    · -- neither the broadcast nor the reset of the count calls for a notify
      exact ⟨by simp [Op.announce], by simp [Op.announce], hrest⟩
    · exact hrest
  | _ => exact hrest

/-- A client thread that stands at a wait is not idle. -/
theorem standing_of_idle (h : n.idle = true) : n.standing = false := by
  have hpc : n.mutex.pc = .idle := by simpa [idle] using h
  simp [standing, hpc, Pc.isWait, Pc.isInCS]

end CoreNode

namespace Wakeup

/-- The invariant of one node. -/
structure WakeInv (net : Mesh) (p : Int) (n : Node) : Prop where
  /-- A thread that is about to block, or blocked, stands at a wait. -/
  stands : n.thread ≠ .running → n.core.standing = true
  /-- The handler call under way will notify of what it changes. -/
  announced : Announced n.call
  /-- A wake-up that is due is still to come. -/
  due : n.thread ≠ .running → n.core.wakes (net.layers p) p →
    ∃ op ∈ n.call, op.notifies n.core = true

variable {net : Mesh} {p : Int} {n n' : Node}

theorem wakeInv_init : WakeInv net p (init.node p) where
  stands h := absurd rfl h
  announced := trivial
  due h := absurd rfl h

/-- A statement of the handler keeps the invariant, unless its notify falls into the gap. -/
theorem wakeInv_handler (hinv : WakeInv net p n)
    (hgap : ∀ op ∈ n.call.head?, op.notifies n.core = true → n.thread = .blocking →
      ¬ n.core.wakes (net.layers p) p)
    {r : Node × Outs} (hr : n.handler (net.layers p) p = some r) : WakeInv net p r.1 := by
  obtain ⟨core, thread, call⟩ := n
  cases call with
  | nil => exact absurd hr (by simp [Node.handler])
  | cons op rest =>
    obtain rfl := Option.some.inj hr
    -- a thread that does not run now did not run before, and the statement is not its notify
    have hthread : (if op.notifies core = true ∧ thread = .blocked then Thread.running else thread) ≠
        .running → thread ≠ .running ∧ ¬ (op.notifies core = true ∧ thread = .blocked) := by
      intro h
      split at h
      · exact absurd rfl h
      · exact ⟨h, ‹_›⟩
    refine ⟨?_, CoreNode.execOp_announced hinv.announced, ?_⟩
    · intro h
      rw [CoreNode.execOp_standing]
      exact hinv.stands (hthread h).1
    · intro h hwakes
      obtain ⟨hstill, hnot⟩ := hthread h
      have hrest : ∃ a ∈ rest, a.notifies core = true := by
        by_cases hcalls : ∃ a ∈ op.announce, a.notifies core = true
        · -- the statement may have made the predicate true; its notify comes later
          obtain ⟨a, ha, hna⟩ := hcalls
          exact ⟨a, hinv.announced.1 a ha, hna⟩
        · have hsame : core.wakes (net.layers p) p := by
            have hnone : ∀ a ∈ op.announce, a.notifies core = false :=
              fun a ha => Bool.eq_false_iff.mpr fun hna => hcalls ⟨a, ha, hna⟩
            exact (CoreNode.execOp_wakes hnone).mp hwakes
          obtain ⟨a, ha, hna⟩ := hinv.due hstill hsame
          rcases List.mem_cons.mp ha with rfl | ha
          · -- this is the notify: a blocked thread would run now, and the gap is excluded
            cases hth : thread with
            | running => exact absurd hth hstill
            | blocked => exact absurd ⟨hna, hth⟩ hnot
            | blocking => exact absurd hsame (hgap a rfl hna hth)
          · exact ⟨a, ha, hna⟩
      obtain ⟨a, ha, hna⟩ := hrest
      refine ⟨a, List.mem_append_right _ ha, ?_⟩
      rw [CoreNode.execOp_notifies]
      exact hna

/-- A statement of the client thread keeps it: the thread goes to block only on a false test. -/
theorem wakeInv_client (hinv : WakeInv net p n) {r : Node × Outs}
    (hr : n.client (net.layers p) p = some r) : WakeInv net p r.1 := by
  obtain ⟨core, thread, call⟩ := n
  cases thread with
  | blocked => exact absurd hr (by simp [Node.client])
  | blocking =>
    obtain rfl := Option.some.inj hr
    -- blocking changes no predicate: what was due still is
    exact ⟨fun _ => hinv.stands (by simp), hinv.announced, fun _ => hinv.due (by simp)⟩
  | running =>
    simp only [Node.client] at hr
    split at hr
    · -- a false test: nothing is due yet
      rename_i htest
      obtain rfl := Option.some.inj hr
      exact ⟨fun _ => htest.1, hinv.announced, fun _ hwakes => absurd hwakes htest.2⟩
    · obtain rfl := Option.some.inj hr
      exact ⟨fun h => absurd rfl h, hinv.announced, fun h => absurd rfl h⟩

/-- What a step does to a node keeps its invariant. -/
theorem wakeInv_step {s : State} {l : Label} (hinv : WakeInv net p (s.node p))
    (hg : noLostNotify net s l) (hst : NodeStep net p (s.node p) l n') : WakeInv net p n' := by
  cases hst with
  | submit d hidle =>
    -- an idle thread is not about to block
    have hrun : (s.node p).thread = .running := by
      by_contra h
      exact absurd (hinv.stands h) (by simp [CoreNode.standing_of_idle hidle])
    exact ⟨fun h => absurd hrun h, hinv.announced, fun h => absurd hrun h⟩
  | client r hr => exact wakeInv_client hinv hr
  | call m q i hcall =>
    refine ⟨hinv.stands, announced_handlerOps m q, ?_⟩
    intro h hwakes
    obtain ⟨op, hop, -⟩ := hinv.due h hwakes
    exact absurd hop (by simp [hcall])
  | handler r hr => exact wakeInv_handler hinv hg hr

theorem wakeInv {s : State} (hs : Reachable (system net) (noLostNotify net) s) (p : Int) :
    WakeInv net p (s.node p) := by
  refine Reachable.invariant (I := fun s => WakeInv net p (s.node p)) ?_ ?_ hs
  · rintro s rfl
    exact wakeInv_init
  · intro s l t _ hinv hg hst
    rcases node_step hst p with hsame | hnode
    · rw [hsame]
      exact hinv
    · exact wakeInv_step hinv hg hnode

/-! ## Lost wake-ups -/

/-- A client thread is blocked although the predicate of its wait is true, and nothing that could notify
    it is under way: no handler call at its node and no message to it. -/
def LostWakeup (net : Mesh) (s : State) : Prop :=
  ∃ p ∈ net.cores, (s.node p).thread = .blocked ∧ (s.node p).core.wakes (net.layers p) p ∧
    (s.node p).call = [] ∧ ∀ q ∈ net.peers p, s.chan q p = []

instance (net : Mesh) (s : State) : Decidable (LostWakeup net s) :=
  inferInstanceAs (Decidable (∃ p ∈ net.cores, _))

/-- While no notify falls between a false test and the block, no wake-up is lost. -/
theorem no_lost_wakeup (net : Mesh) (s : State)
    (hs : Reachable (system net) (noLostNotify net) s) : ¬ LostWakeup net s := by
  rintro ⟨p, -, hblocked, hwakes, hcall, -⟩
  obtain ⟨op, hop, -⟩ := (wakeInv hs p).due (by simp [hblocked]) hwakes
  exact absurd hop (by simp [hcall])

/-- Node `1` writes, and has sent its `REQUEST` to node `2`; its test fails. Node `2` answers. -/
def asked : List Label :=
  [.submit 1 ⟨.sum, 5⟩, .client 1, .client 1, .client 1, .client 1, .client 1, .call 2 1 0, .handler 2,
    .handler 2, .handler 2, .handler 2]

/-- Node `1` blocks before the handler of the `ACK` notifies. -/
def notified : List Label := asked ++ [.client 1, .call 1 2 0, .handler 1, .handler 1, .client 1]

/-- Node `1` blocks after the handler of the `ACK` has notified. -/
def missed : List Label := asked ++ [.call 1 2 0, .handler 1, .handler 1, .client 1]

theorem no_lost_wakeup_notified :
    ∃ s, exec (system Mesh.two) (noLostNotify Mesh.two) init notified = some s ∧
      (s.node 1).core.mutex.pc.isInCS = true ∧ ¬ LostWakeup Mesh.two s := by
  obtain ⟨s, hexec, hs, hin⟩ := Reachable.of_exec (system Mesh.two) (noLostNotify Mesh.two) init notified
    (fun s => (s.node 1).core.mutex.pc.isInCS) rfl (by decide +kernel)
  exact ⟨s, hexec, hin, no_lost_wakeup Mesh.two s hs⟩

/-- Node `1` sleeps for ever: its test is true, and nobody will notify it. -/
theorem lost_wakeup : ∃ s, Reachable (system Mesh.two) anyStep s ∧ LostWakeup Mesh.two s := by
  obtain ⟨s, -, hs, hlost⟩ := Reachable.of_exec (system Mesh.two) anyStep init missed
    (fun s => decide (LostWakeup Mesh.two s)) rfl (by decide +kernel)
  exact ⟨s, hs, of_decide_eq_true hlost⟩

end Wakeup
end Epidemica
