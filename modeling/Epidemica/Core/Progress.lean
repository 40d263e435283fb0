import Epidemica.Core.Projection
import Epidemica.Lib.Fairness

/-!
# `Core.Progress` — a client thread gets on, or stands at a wait for ever

`CoreNode.left` bounds the statements that a client thread has left to execute. Every statement lowers it,
except at the two waits, where a false test leaves the node as it was. So in a fair run a transaction that
does not return comes to stand at one of the waits for ever, and its test is false again and again
(`frozen_of_busy`, `Frozen.standing`).
-/

namespace Epidemica

open Network Transition Filter

namespace CoreNode

/-- How many statements of `ExecuteTransaction` are left, at most. -/
def left (L : Layers) (n : CoreNode) : ℕ :=
  let peers := (L CORE_LAYER).length
  let below := (L LAYER_ONE).length
  match n.mutex.pc with
  | .idle => 0
  | .getValue => 16 + 3 * peers + below
  | .store _ => 15 + 3 * peers + below
  | .sendRequest _ todo => 14 + 2 * peers + below + todo.length
  | .wait _ => 13 + 2 * peers + below
  | .inCS _ =>
    match n.cs with
    | .sendWrite todo => 12 + peers + below + todo.length
    | .execute => 11 + peers + below
    | .countWrite => 10 + peers + below
    | .testCount => 9 + peers + below
    | .readVersion => 8 + peers + below
    | .sendSet _ todo => 7 + peers + todo.length
    | .resetCount => 6 + peers
    | .waitReady => 5 + peers
    | .resetFinished => 4 + peers
    | .done => 3 + peers
  | .getRelease _ => 2 + peers
  | .sendRelease _ _ todo => 1 + todo.length

variable {L : Layers} {me : Int} {n : CoreNode}

/-- Only the position of the thread counts. -/
theorem left_congr {n' : CoreNode} (hpc : n'.mutex.pc = n.mutex.pc) (hcs : n'.cs = n.cs) :
    n'.left L = n.left L := by
  unfold left
  rw [hpc, hcs]

/-- Any other statement leaves fewer. -/
theorem requester_left (hidle : n.idle = false) (hwakes : n.standing = true → n.wakes L me) :
    (n.requester L me).1.left L < n.left L := by
  obtain ⟨⟨m, pc⟩, cs, d, tr, wc, fin⟩ := n
  rcases pc with _ | _ | _ | ⟨_, _ | _⟩ | t | t | _ | ⟨_, _, _ | _⟩
  case idle => exact absurd hidle (by simp [idle])
  case wait =>
    have htrue : m.okeyCS (L CORE_LAYER) me = true := by
      simpa [wakes, standing, Pc.isWait, Pc.isInCS] using hwakes
    simp [requester, MutexNode.requester, htrue, left, Pc.isInCS]
    omega
  case inCS =>
    rcases cs with ⟨_ | _⟩ | _ | _ | _ | _ | ⟨_, _ | _⟩ | _ | _ | _ | _
    case waitReady =>
      have hfull : fin = (L CORE_LAYER).length := by
        simpa [wakes, standing, Pc.isWait, Pc.isInCS] using hwakes
      simp [requester, critical, hfull, left, Pc.isInCS]
    case testCount =>
      simp only [requester, critical, Pc.isInCS]
      by_cases hten : wc ≥ UPDATE_COUNT
      · simp [hten, left]
      · simp [hten, left]
        omega
    all_goals simp [requester, critical, MutexNode.requester, left, Pc.isInCS]
  all_goals simp [requester, MutexNode.requester, left, Pc.isInCS] <;> omega

end CoreNode

namespace Core

/-- What cannot be put off for ever: the statements of the client threads and the handling of messages. A
    thread in a wait whose predicate holds is among them, so it tests again even if no `notify` reaches it. -/
def works : Label → Prop
  | .requester _ | .handle _ _ _ => True
  | _ => False

/-- A guard that says what may be submitted and that connections are queues, and nothing else. -/
structure Admits (G : Guard State Label) : Prop where
  clients : ∀ s l, G s l → clients s l
  fifo : ∀ s l, G s l → fifo s l
  requester : ∀ s p, G s (.requester p)
  handle : ∀ s p q, G s (.handle p q 0)

theorem admits_fifo : Admits fun s l => clients s l ∧ fifo s l :=
  ⟨fun _ _ h => h.1, fun _ _ h => h.2, fun _ _ => ⟨trivial, trivial⟩, fun _ _ _ => ⟨trivial, rfl⟩⟩

/-! ## Connections as queues -/

section
variable {net : Mesh} {G : Guard State Label} {s t : State} {p q : Int} {l : Label}

theorem enabled_requester (hG : Admits G) (hp : p ∈ net.cores) (hidle : (s.node p).idle = false) :
    Enabled (system net) G s (.requester p) :=
  ⟨hG.requester s p, by simp [system, step, hp, hidle]⟩

theorem enabled_handle (hG : Admits G) (hp : p ∈ net.cores) (hq : q ∈ net.peers p)
    (hne : s.chan q p ≠ []) : Enabled (system net) G s (.handle p q 0) := by
  obtain ⟨m, rest, hc⟩ := List.exists_cons_of_ne_nil hne
  have hq : q ∈ net.layers p CORE_LAYER := hq
  exact ⟨hG.handle s p q, by simp [system, step, hp, hq, hc]⟩

/-- What a step does to the connection from `q` to `p`: handling takes its head out, and what is put in
    comes from a statement or a handler of `q`. -/
theorem chan_step (hG : Admits G) (hp : p ∈ net.cores) (hq : q ∈ net.peers p) (hg : G s l)
    (hst : (system net).step s l = some t) :
    ∃ new, t.chan q p = (if l = .handle p q 0 then (s.chan q p).tail else s.chan q p) ++ new ∧
      ∀ m ∈ new, (l = .requester q ∧ m ∈ select p ((s.node q).requester (net.layers q) q).2) ∨
        ∃ x y, l = .handle q x 0 ∧ (s.chan x q)[0]? = some y ∧
          m ∈ select p ((s.node q).handleMsg (net.layers q) q y.value x y.tag).2 := by
  obtain ⟨hqc, hqp⟩ := (net.mem_peers hp).mp hq
  cases l with
  | submit a d =>
    obtain ⟨-, -, rfl⟩ := step_submit hst
    exact ⟨[], by simp, by simp⟩
  | requester a =>
    obtain ⟨-, -, rfl⟩ := step_requester hst
    by_cases hqa : q = a
    · subst hqa
      exact ⟨_, by simp, fun m hm => Or.inl ⟨rfl, hm⟩⟩
    · exact ⟨[], by simp [hqa], by simp⟩
  | handle a x i =>
    obtain rfl : i = 0 := hG.fifo _ _ hg
    obtain ⟨ha, hx, m, hm, rfl⟩ := step_handle hst
    by_cases hqa : q = a
    · subst hqa
      refine ⟨_, ?_, fun y hy => Or.inr ⟨x, m, rfl, hm, hy⟩⟩
      simp [hqp, hqp.symm]
    · refine ⟨[], ?_, by simp⟩
      by_cases hhead : p = a ∧ q = x
      · obtain ⟨rfl, rfl⟩ := hhead
        simp [hqa, List.eraseIdx_zero]
      · have hlabel : ¬ (Label.handle a x 0 = Label.handle p q 0) := by
          intro h
          injection h with hap hxq
          exact hhead ⟨hap.symm, hxq.symm⟩
        have hother : ¬ (q = x ∧ p = a) := fun h => hhead h.symm
        simp [hqa, hlabel, hother]
  | drain a b =>
    obtain ⟨hb, -, rfl⟩ := step_drain net.layers hst
    have hpb : p ≠ b := fun h => hb (h ▸ hp)
    exact ⟨[], by simp [hpb], by simp⟩

/-- The connection from `q` to `p`. -/
def connection (hG : Admits G) (hp : p ∈ net.cores) (hq : q ∈ net.peers p) :
    Queue (system net) G Msg :=
  Queue.ofStep (fun s => s.chan q p) (.handle p q 0) (fun _ _ hne => enabled_handle hG hp hq hne)
    fun _ _ _ _ hg hst => (chan_step hG hp hq hg hst).imp fun _ h => h.1

/-- What is put into it. -/
theorem connection_puts (hG : Admits G) (hp : p ∈ net.cores) (hq : q ∈ net.peers p) (hg : G s l)
    (hst : (system net).step s l = some t) {new : List Msg}
    (hputs : (connection hG hp hq).Puts s l t new) :
    ∀ m ∈ new, (l = .requester q ∧ m ∈ select p ((s.node q).requester (net.layers q) q).2) ∨
      ∃ x y, l = .handle q x 0 ∧ (s.chan x q)[0]? = some y ∧
        m ∈ select p ((s.node q).handleMsg (net.layers q) q y.value x y.tag).2 := by
  obtain ⟨new', ht, hnew⟩ := chan_step hG hp hq hg hst
  exact hputs.eq ht ▸ hnew

/-! ## Threads that stand still -/

/-- The thread of `p` is moved by its own statements only. -/
theorem thread_step (hst : (system net).step s l = some t) (hidle : (s.node p).idle = false)
    (hl : l ≠ .requester p) :
    (t.node p).mutex.pc = (s.node p).mutex.pc ∧ (t.node p).cs = (s.node p).cs := by
  cases l with
  | submit a d =>
    obtain ⟨-, hidle', rfl⟩ := step_submit hst
    have hpa : p ≠ a := by
      rintro rfl
      exact absurd (hidle'.symm.trans hidle) (by simp)
    simp [hpa]
  | requester a =>
    obtain ⟨-, -, rfl⟩ := step_requester hst
    have hpa : p ≠ a := by
      rintro rfl
      exact hl rfl
    simp [hpa]
  | handle a x i =>
    obtain ⟨-, -, m, -, rfl⟩ := step_handle hst
    by_cases hpa : p = a
    · subst hpa
      obtain ⟨-, -, hcs, hpc⟩ :=
        CoreNode.handleMsg_pending? (L := net.layers p) (n := s.node p) p m x
      simpa using ⟨hpc, hcs⟩
    · simp [hpa]
  | drain a b =>
    obtain ⟨-, -, rfl⟩ := step_drain net.layers hst
    exact ⟨rfl, rfl⟩

/-- A thread that is idle stays so while only reads are submitted to its node. -/
theorem idle_step (net : Mesh) (hst : (system net).step s l = some t)
    (hread : ∀ d, l = .submit p d → d.type = .read) (hidle : (s.node p).idle = true) :
    (t.node p).idle = true := by
  cases l with
  | submit a d =>
    obtain ⟨-, -, rfl⟩ := step_submit hst
    by_cases hpa : p = a
    · subst hpa
      simpa [CoreNode.executeTransaction, hread d rfl, CoreNode.idle] using hidle
    · simpa [hpa] using hidle
  | requester a =>
    obtain ⟨-, hbusy, rfl⟩ := step_requester hst
    have hpa : p ≠ a := by
      rintro rfl
      exact absurd (hidle.symm.trans hbusy) (by simp)
    simpa [hpa] using hidle
  | handle a x i =>
    obtain ⟨-, -, m, -, rfl⟩ := step_handle hst
    by_cases hpa : p = a
    · subst hpa
      obtain ⟨-, -, -, hpc⟩ := CoreNode.handleMsg_pending? (L := net.layers p) (n := s.node p) p m x
      simpa [CoreNode.idle, hpc] using hidle
    · simpa [hpa] using hidle
  | drain a b =>
    obtain ⟨-, -, rfl⟩ := step_drain net.layers hst
    exact hidle

/-- A thread at work gets on, or stays where it is. -/
theorem thread_next (ρ : Path (system net) G) {i : ℕ}
    (hidle : ((ρ.state i).node p).idle = false) :
    ((ρ.state (i + 1)).node p).left (net.layers p) < ((ρ.state i).node p).left (net.layers p) ∨
      ((ρ.state (i + 1)).node p).mutex.pc = ((ρ.state i).node p).mutex.pc ∧
        ((ρ.state (i + 1)).node p).cs = ((ρ.state i).node p).cs := by
  cases hlabel : ρ.label i with
  | none =>
    rw [ρ.still hlabel]
    exact Or.inr ⟨rfl, rfl⟩
  | some l =>
    have hmove := ρ.taken hlabel
    by_cases hl : l = .requester p
    · subst hl
      obtain ⟨-, -, ht⟩ := step_requester hmove.2
      rw [ht, put_node, if_pos rfl]
      by_cases hwakes : ((ρ.state i).node p).standing = true → ((ρ.state i).node p).wakes (net.layers p) p
      · exact Or.inl (CoreNode.requester_left hidle hwakes)
      · obtain ⟨hstand, hwakes⟩ := Classical.not_imp.mp hwakes
        rw [CoreNode.requester_of_not_wakes hstand hwakes]
        exact Or.inr ⟨rfl, rfl⟩
    · exact Or.inr (thread_step hmove.2 hidle hl)

/-- From some time on the thread of `p` stands at one place. -/
def Frozen (ρ : Path (system net) G) (p : Int) (pc : Pc) (cs : CsPc) : Prop :=
  ∀ᶠ i in atTop, ((ρ.state i).node p).mutex.pc = pc ∧ ((ρ.state i).node p).cs = cs

/-- A transaction that never returns comes to stand somewhere for ever. -/
theorem frozen_of_busy {ρ : Path (system net) G}
    (hbusy : ∀ᶠ i in atTop, ((ρ.state i).node p).idle = false) :
    ∃ pc cs, pc ≠ .idle ∧ Frozen ρ p pc cs := by
  obtain ⟨i, hbusy⟩ := eventually_atTop.mp hbusy
  -- the place where the fewest statements are left
  have hsome : ∃ r j, i ≤ j ∧ ((ρ.state j).node p).left (net.layers p) = r := ⟨_, i, Nat.le_refl i, rfl⟩
  classical
  obtain ⟨j, hij, hj⟩ := Nat.find_spec hsome
  have hleast : ∀ k, i ≤ k →
      ((ρ.state j).node p).left (net.layers p) ≤ ((ρ.state k).node p).left (net.layers p) := by
    intro k hik
    rw [hj]
    exact Nat.find_min' hsome ⟨k, hik, rfl⟩
  refine ⟨((ρ.state j).node p).mutex.pc, ((ρ.state j).node p).cs, ?_, eventually_atTop.mpr ⟨j, ?_⟩⟩
  · intro hpc
    exact absurd (hbusy j hij) (by simp [CoreNode.idle, hpc])
  · intro k hjk
    induction k, hjk using Nat.le_induction with
    | base => exact ⟨rfl, rfl⟩
    | succ k hjk ih =>
      rcases thread_next ρ (hbusy k (Nat.le_trans hij hjk)) with hless | ⟨hpc, hcs⟩
      · have hk := hleast (k + 1) (by omega)
        rw [CoreNode.left_congr ih.1 ih.2] at hless
        omega
      · exact ⟨hpc.trans ih.1, hcs.trans ih.2⟩

/-- In a fair run it stands at a wait there, and its test is false again and again. -/
theorem Frozen.standing (hG : Admits G) (hp : p ∈ net.cores) {ρ : Path (system net) G}
    (hfair : ρ.Fair works) {pc : Pc} {cs : CsPc} (hpc : pc ≠ .idle) (h : Frozen ρ p pc cs) :
    ∃ᶠ i in atTop, ((ρ.state i).node p).standing = true ∧ ¬ ((ρ.state i).node p).wakes (net.layers p) p := by
  obtain ⟨j, hj⟩ := eventually_atTop.mp h
  have hidle : ∀ k, j ≤ k → ((ρ.state k).node p).idle = false := by
    intro k hk
    simp [CoreNode.idle, (hj k hk).1, hpc]
  rw [frequently_atTop]
  intro i
  obtain ⟨k, hk, hlabel⟩ := hfair (.requester p) trivial (max i j) fun k hk =>
    enabled_requester hG hp (hidle k (by omega))
  refine ⟨k, by omega, ?_⟩
  have hmove := ρ.taken hlabel
  obtain ⟨-, -, ht⟩ := step_requester hmove.2
  -- the statement leaves the thread where it is
  have hsame := hj (k + 1) (by omega)
  rw [ht, put_node, if_pos rfl, ← (hj k (by omega)).1, ← (hj k (by omega)).2] at hsame
  by_contra hgo
  have hless : (((ρ.state k).node p).requester (net.layers p) p).1.left (net.layers p) <
      ((ρ.state k).node p).left (net.layers p) := CoreNode.requester_left (hidle k (by omega))
    fun hstand => by_contra fun hwakes => hgo ⟨hstand, hwakes⟩
  rw [CoreNode.left_congr hsame.1 hsame.2] at hless
  exact Nat.lt_irrefl _ hless

end

end Core
end Epidemica
