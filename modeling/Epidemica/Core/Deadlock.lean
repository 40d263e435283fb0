import Epidemica.Core.Projection
import Mathlib.Data.Finset.Max
import Mathlib.Data.Prod.Lex

/-!
# `Core.Deadlock` — no protocol deadlock

Let everything in flight be delivered and every client thread stand idle or at a wait. Two cases:

- some thread waits for `READY`s. Then all of them have been counted, and its wait is over;
- all that wait, wait for the critical section. Then each has been acknowledged with a later clock by
  every peer, no queue keeps a request that was released, and the least request passes `okeyCS`.

The order of delivery matters here: it is the mutex that needs its connections to be queues.
-/

namespace Epidemica

open Network Transition

/-- The ticks of a request that waits. -/
def Pc.waitTicks : Pc → Int
  | .wait t => t
  | _ => 0

/-- The nodes whose threads stand at `cv_Wait.wait`. -/
def Mutex.waiters (net : Mesh) (s : Mutex.State) : Finset Int :=
  net.cores.toFinset.filter fun p => (s.node p).pc.isWait = true

namespace Core

/-! ## The waits for the critical section -/

section
variable {net : Mesh} {Ok : Mutex.Handling} {s : Mutex.State} {p q t : Int}

/-- With nothing in flight, what a node has been told of `q` is what stands in its queue. -/
theorem requestQ_eq_told (hs : Reachable (Mutex.system net) (Mutex.handling Ok) s)
    (hp : p ∈ net.cores) (hq : q ∈ net.cores) (hqp : q ≠ p) (hempty : s.chan q p = []) :
    (s.node p).lamport.requestQ q = (s.node q).pc.told p := by
  have hmirror := (Mutex.linkInv hs hq hp hqp).mirror
  simp only [Mutex.State.link, hempty, Mutex.view] at hmirror
  exact Option.some.inj hmirror

/-- With nothing in flight, a waiting request has been answered with a later clock. -/
theorem lt_clock_of_wait (hs : Reachable (Mutex.system net) (Mutex.handling Ok) s)
    (hp : p ∈ net.cores) (hq : q ∈ net.cores) (hqp : q ≠ p) (hpq : s.chan p q = [])
    (hback : s.chan q p = []) (hwait : (s.node p).pc = .wait t) :
    t < (s.node p).lamport.clock.getValue q := by
  have hlink := Mutex.linkInv hs hp hq hqp.symm
  have hacked := hlink.acked t (by simp [Mutex.State.link, hwait, Pc.told])
  simpa [Mutex.State.link, hpq, hback] using hacked

/-- The least of the requests that wait passes its test. -/
theorem okeyCS_of_least (hs : Reachable (Mutex.system net) (Mutex.handling Ok) s)
    (hempty : ∀ a ∈ net.cores, ∀ b ∈ net.cores, s.chan a b = [])
    (hstand : ∀ a ∈ net.cores, (s.node a).pc = .idle ∨ (s.node a).pc.isWait = true)
    (hp : p ∈ net.cores) (hwait : (s.node p).pc = .wait t)
    (hleast : ∀ q ∈ net.cores, ∀ u, (s.node q).pc = .wait u → isGreater t p u q = false) :
    (s.node p).lamport.okeyCS (net.peers p) p = true := by
  have hown : (s.node p).lamport.requestQ p = some t :=
    (Mutex.nodeInv hs hp).own t (by simp [hwait, Pc.own?])
  rw [LamportMutex.okeyCS_iff hown]
  intro q hq
  obtain ⟨hqc, hqp⟩ := (net.mem_peers hp).mp hq
  constructor
  · intro u hu
    -- a request in the queue is one that its node still waits with
    rw [requestQ_eq_told hs hp hqc hqp (hempty q hqc p hp)] at hu
    rcases hstand q hqc with hidle | hw
    · exact absurd hu (by simp [hidle, Pc.told])
    · obtain ⟨v, hv⟩ := Pc.isWait_iff.mp hw
      obtain rfl : v = u := by simpa [hv, Pc.told] using hu
      exact hleast q hqc v hv
  · have hlt := lt_clock_of_wait hs hp hqc hqp (hempty p hp q hqc) (hempty q hqc p hp) hwait
    rw [isGreater_eq_false]
    omega

/-- Some waiting request is the least. -/
theorem exists_least (hwait : ∃ p ∈ net.cores, (s.node p).pc.isWait = true) :
    ∃ p ∈ net.cores, ∃ t, (s.node p).pc = .wait t ∧
      ∀ q ∈ net.cores, ∀ u, (s.node q).pc = .wait u → isGreater t p u q = false := by
  obtain ⟨p₀, hp₀, hw₀⟩ := hwait
  have hmem : ∀ p, p ∈ Mutex.waiters net s ↔ p ∈ net.cores ∧ (s.node p).pc.isWait = true := by
    intro p
    unfold Mutex.waiters
    rw [Finset.mem_filter, List.mem_toFinset]
  -- requests are ordered by ticks, then by id, as `isGreater` compares them
  obtain ⟨p, hp, hmin⟩ := (Mutex.waiters net s).exists_min_image
    (fun p => toLex ((s.node p).pc.waitTicks, p)) ⟨p₀, (hmem p₀).mpr ⟨hp₀, hw₀⟩⟩
  obtain ⟨hpc, hpw⟩ := (hmem p).mp hp
  obtain ⟨t, ht⟩ := Pc.isWait_iff.mp hpw
  refine ⟨p, hpc, t, ht, ?_⟩
  intro q hq u hu
  have hle := hmin q ((hmem q).mpr ⟨hq, Pc.isWait_iff.mpr ⟨u, hu⟩⟩)
  rw [Prod.Lex.toLex_le_toLex, ht, hu] at hle
  simp only [Pc.waitTicks] at hle
  rw [isGreater_eq_false]
  omega

end

/-! ## States in which nothing is under way -/

/-- No protocol deadlock: when nothing is in flight between core nodes and every client thread is idle or
    at a wait, and not all are idle, then the predicate of some wait is true. -/
theorem no_deadlock (net : Mesh) (s : State)
    (hs : Reachable (system net) (fun s l => clients s l ∧ fifo s l) s)
    (hempty : ∀ p ∈ net.cores, ∀ q ∈ net.cores, s.chan p q = [])
    (hstand : ∀ p ∈ net.cores, (s.node p).idle = true ∨ (s.node p).standing = true)
    (hbusy : ∃ p ∈ net.cores, (s.node p).idle = false) :
    ∃ p ∈ net.cores, (s.node p).wakes (net.layers p) p := by
  by_cases hready : ∃ p ∈ net.cores, (s.node p).mutex.pc.isInCS = true ∧ (s.node p).cs = .waitReady
  · -- every `READY` it waits for has been counted
    obtain ⟨p, hp, hin, hcs⟩ := hready
    have hinv : ReadyInv net p s := readyInv (fun _ _ h => h.1) hp hs
    have hpend : (s.node p).pending? = some [] := by simp [CoreNode.pending?, hin, hcs]
    obtain ⟨-, -, -, -, -, hadd⟩ := hinv.busy [] hpend
    have hzero : ((net.peers p).map (inflight s p)).sum = 0 := by
      rw [List.sum_eq_zero_iff_forall_eq_nat]
      intro k hk
      obtain ⟨q, hq, rfl⟩ := List.mem_map.mp hk
      have hqc := ((net.mem_peers hp).mp hq).1
      simp [inflight, hempty p hp q hqc, hempty q hqc p hp]
    have hfull : (s.node p).finishedNodes = (net.peers p).length := by
      rw [hzero] at hadd
      simpa using hadd
    exact ⟨p, hp, Or.inr ⟨hin, hcs, hfull⟩⟩
  · -- all that stand, stand at the wait for the critical section
    have hsim : Reachable (Mutex.system net) (Mutex.handling Mutex.anyMessage) (mutexes net s) :=
      (mutexSim (fun _ _ h => h.1) (fun _ _ h => h.2) handlingMutex_any).reachable hs
    have hwait : ∀ p ∈ net.cores, (s.node p).mutex.pc = .idle ∨ (s.node p).mutex.pc.isWait = true := by
      intro p hp
      rcases hstand p hp with hidle | hst
      · exact Or.inl (by simpa [CoreNode.idle] using hidle)
      · simp only [CoreNode.standing, Bool.or_eq_true, Bool.and_eq_true, decide_eq_true_eq] at hst
        exact Or.inr (hst.resolve_right fun h => hready ⟨p, hp, h⟩)
    have hsome : ∃ p ∈ net.cores, ((mutexes net s).node p).pc.isWait = true := by
      obtain ⟨p, hp, hidle⟩ := hbusy
      refine ⟨p, hp, (hwait p hp).resolve_left ?_⟩
      intro hpc
      exact absurd hidle (by simp [CoreNode.idle, hpc])
    obtain ⟨p, hp, t, ht, hleast⟩ := exists_least hsome
    have hokey := okeyCS_of_least hsim
      (fun a ha b hb => by simp [mutexes, hempty a ha b hb]) hwait hp ht hleast
    exact ⟨p, hp, Or.inl ⟨Pc.isWait_iff.mpr ⟨t, ht⟩, hokey⟩⟩

/-- Two nodes ask at once and everything is delivered: both stand at the wait. -/
def contendRun : List Label :=
  [.submit 1 ⟨.sum, 5⟩, .submit 2 ⟨.multiply, 3⟩, .requester 1, .requester 2, .requester 1,
    .requester 2, .requester 1, .requester 2, .requester 1, .requester 2,
    .handle 1 2 0, .handle 2 1 0, .handle 1 2 0, .handle 2 1 0]

theorem no_deadlock_contendRun :
    ∃ s, Reachable (system Mesh.two) (fun s l => clients s l ∧ fifo s l) s ∧
      (s.node 1).mutex.pc.isWait = true ∧ (s.node 2).mutex.pc.isWait = true ∧
      ∃ p ∈ Mesh.two.cores, (s.node p).wakes (Mesh.two.layers p) p := by
  obtain ⟨s, -, hs, hP⟩ := Reachable.of_exec (system Mesh.two)
    (fun s l => clients s l ∧ fifo s l) init contendRun
    (fun s => (s.node 1).mutex.pc.isWait && (s.node 2).mutex.pc.isWait &&
      Mesh.two.cores.all fun p => Mesh.two.cores.all fun q => s.chan p q == []) rfl (by decide)
  simp only [Bool.and_eq_true, List.all_eq_true, beq_iff_eq] at hP
  obtain ⟨⟨h₁, h₂⟩, hempty⟩ := hP
  have hstand : ∀ p ∈ Mesh.two.cores, (s.node p).mutex.pc.isWait = true := by
    intro p hp
    rcases List.mem_pair.mp hp with rfl | rfl
    · exact h₁
    · exact h₂
  refine ⟨s, hs, h₁, h₂, no_deadlock Mesh.two s hs hempty (fun p hp => Or.inr ?_) ⟨1, by decide, ?_⟩⟩
  · simp [CoreNode.standing, hstand p hp]
  · obtain ⟨t, hpc⟩ := Pc.isWait_iff.mp h₁
    simp [CoreNode.idle, hpc]

end Core
end Epidemica
