import Epidemica.Core.History
import Epidemica.Core.Sequential
import Epidemica.Mutex.Exclusion

/-!
# `Core.Replication` — replica agreement

Under the condition that makes the mutex exclude (`quietSend`), the writes of at most one node are
outstanding at any time, because the wait for the `READY`s keeps the mutex until nothing is in flight.
So each replica has executed the writes in the order in which the critical sections were entered, up to
the one in progress (`OrderInv`), and the replicas can differ by that one only.

A run in which the transactions come one after another meets the condition.
-/

namespace Epidemica
namespace Core

open Network Transition

/-- Runs in which no node handles a `REQUEST` while it is sending its own. -/
abbrev quietRuns : Guard State Label := fun s l => clients s l ∧ fifo s l ∧ quietSend s l

/-- Runs in which a transaction is submitted when the one before has returned. -/
abbrev sequentialRuns (net : Mesh) : Guard State Label :=
  fun s l => clients s l ∧ fifo s l ∧ sequential net s l

/-! ## One writer at a time -/

section
variable {net : Mesh} {G : Guard State Label} {s t : State} {h : Hist} {w v x : Int}

theorem noOvertake_of_quiet {s : State} {l : Label} (hg : quietRuns s l) :
    handlingMutex Mutex.noOvertake s l := by
  cases l with
  | handle p q i =>
    intro m hm _ htag
    have hsend : (s.node p).mutex.pc.sending = false := hg.2.2 m hm htag
    cases hpc : (s.node p).mutex.pc with
    | sendRequest t todo => cases todo <;> simp_all [Pc.sending, Pc.unsent]
    | _ => simp_all [Pc.sending, Pc.unsent]
  | _ => trivial

/-- The nodes exclude each other, with all of `ExecuteTransaction` in place. -/
theorem core_exclusion (hs : Reachable (system net) quietRuns s) (hw : w ∈ net.cores)
    (hv : v ∈ net.cores) (hinw : (s.node w).mutex.pc.isInCS = true)
    (hinv : (s.node v).mutex.pc.isInCS = true) : w = v := by
  have hsim := (mutexSim (G := quietRuns) (fun _ _ h => h.1) (fun _ _ h => h.2.1)
    (fun _ _ h => noOvertake_of_quiet h)).reachable hs
  exact Mutex.exclusion hsim hw hv hinw hinv

/-- What is outstanding belongs to a node in its critical section. -/
theorem inCS_of_outstanding (hready : ReadyInv net w s) (hw : w ∈ net.cores) (hx : x ∈ net.cores)
    (hout : outstanding s w x ≠ []) : (s.node w).mutex.pc.isInCS = true := by
  by_contra hin
  have hpend : (s.node w).pending? = none := by simp [CoreNode.pending?, hin]
  apply hout
  unfold outstanding
  split
  · simp [CoreNode.toRun, hin]
  · rename_i hxw
    have hz := (hready.quiet hpend).2 x ((net.mem_peers hw).mpr ⟨hx, hxw⟩)
    have hnil : writesIn (s.chan w x) = [] :=
      List.eq_nil_of_length_eq_zero (Nat.eq_zero_of_add_eq_zero_right hz)
    simp [hnil, CoreNode.toSend, hpend]

/-- At most one node has anything outstanding. -/
theorem one_writer (hs : Reachable (system net) quietRuns s) (hw : w ∈ net.cores) (hv : v ∈ net.cores)
    (hx : x ∈ net.cores) (hout : outstanding s w x ≠ []) (hne : v ≠ w) : outstanding s v x = [] := by
  by_contra hout'
  have hinv : ∀ u ∈ net.cores, outstanding s u x ≠ [] → (s.node u).mutex.pc.isInCS = true :=
    fun u hu => inCS_of_outstanding (readyInv (fun _ _ h => h.1) hu hs) hu hx
  exact hne (core_exclusion hs hv hw (hinv v hv hout') (hinv w hw hout))

/-- No write reaches a node in its own critical section: its writer is in its critical section until the
    message is handled. -/
theorem not_inCS_of_write {q : Int} {i : Nat} {m : Msg} (hs : Reachable (system net) quietRuns s)
    (hx : x ∈ net.cores) (hq : q ∈ net.peers x) (hm : (s.chan q x)[i]? = some m)
    (hwrite : m.write?.isSome = true) : (s.node x).mutex.pc.isInCS = false := by
  obtain ⟨hqc, hqx⟩ := (net.mem_peers hx).mp hq
  have hout : outstanding s q x ≠ [] := by
    obtain ⟨l₁, l₂, hl, -⟩ := writesIn_eraseIdx hm
    obtain ⟨d, hd⟩ := Option.isSome_iff_exists.mp hwrite
    simp [outstanding, hqx.symm, hl, hd]
  have hready := readyInv (G := quietRuns) (fun _ _ h => h.1) hqc hs
  have hinq := inCS_of_outstanding hready hqc hx hout
  by_contra hin
  exact hqx (core_exclusion hs hqc hx hinq (by simpa using hin))

/-! ## The order of execution -/

/-- A step lets one write enter, or has `x` execute one write, or neither. -/
theorem step_event {l : Label} (hst : (system net).step s l = some t) (x : Int) :
    (entering net.layers s l = [] ∧ executing s x l = []) ∨
    (∃ w ∈ net.cores, ∃ d, entering net.layers s l = [(w, d)] ∧ executing s x l = []) ∨
    (∃ w ∈ net.cores, ∃ d, entering net.layers s l = [] ∧ executing s x l = [(w, d)]) := by
  cases l with
  | submit p d => exact Or.inl ⟨rfl, rfl⟩
  | requester p =>
    obtain ⟨hp, -, -⟩ := step_requester hst
    by_cases henter : (s.node p).enters (net.layers p) p = true
    · refine Or.inr (Or.inl ⟨p, hp, (s.node p).trans, by simp [entering, henter], ?_⟩)
      have hin : ¬ (s.node p).mutex.pc.isInCS = true := by
        intro hin
        rw [CoreNode.enters_of_inCS _ _ hin] at henter
        exact absurd henter (by simp)
      simp [executing, hin]
    · by_cases hexec : x = p ∧ (s.node p).mutex.pc.isInCS = true ∧ (s.node p).cs = .execute
      · exact Or.inr (Or.inr ⟨p, hp, (s.node p).trans, by simp [entering, henter], if_pos hexec⟩)
      · exact Or.inl ⟨by simp [entering, henter], if_neg hexec⟩
  | handle p q i =>
    obtain ⟨hp, hq, m, hm, -⟩ := step_handle hst
    have hqc : q ∈ net.cores := ((net.mem_peers hp).mp hq).1
    by_cases hxp : x = p
    · cases hw : m.write? with
      | none => exact Or.inl ⟨rfl, by simp [executing, hxp, hm, hw]⟩
      | some d => exact Or.inr (Or.inr ⟨q, hqc, d, rfl, by simp [executing, hxp, hm, hw]⟩)
    · exact Or.inl ⟨rfl, by simp [executing, hxp]⟩
  | drain p b => exact Or.inl ⟨rfl, rfl⟩

/-- What `x` has executed, with the write in progress if it is still outstanding there, is what has
    entered. `w` is the node whose write that is, or any node. -/
def OrderInv (net : Mesh) (x : Int) (s : State) (h : Hist) : Prop :=
  ∀ w ∈ net.cores, (∀ v ∈ net.cores, v ≠ w → outstanding s v x = []) →
    h.applied x ++ (outstanding s w x).map (fun d => (w, d)) = h.entered

theorem OrderInv.step (hs : Reachable (system net) quietRuns s) (hx : x ∈ net.cores) {l : Label}
    (hinv : OrderInv net x s h) (hst : (system net).step s l = some t) :
    OrderInv net x t (record net.layers s l h) := by
  have hmove : ∀ v ∈ net.cores, outstanding s v x ++ select v (entering net.layers s l) =
      select v (executing s x l) ++ outstanding t v x :=
    fun v hv => outstanding_step (G := quietRuns) (fun _ _ h => h.1) hs hv hx hst
  intro w hw hothers
  simp only [record]
  rcases step_event hst x with ⟨hE, hA⟩ | ⟨p, hp, d, hE, hA⟩ | ⟨p, hp, d, hE, hA⟩ <;>
    simp only [hE, hA] at hmove ⊢
  · -- nothing enters and nothing is executed
    have hsame : ∀ v ∈ net.cores, outstanding s v x = outstanding t v x := by
      intro v hv
      simpa using hmove v hv
    simpa [hsame w hw] using hinv w hw fun v hv hvw => by rw [hsame v hv, hothers v hv hvw]
  · -- the write that enters is the only one outstanding
    have hpw : p = w := by
      by_contra hpw
      have hp' := hmove p hp
      rw [hothers p hp hpw] at hp'
      exact absurd hp' (by simp)
    subst hpw
    have hsame : ∀ v ∈ net.cores, v ≠ p → outstanding s v x = outstanding t v x := by
      intro v hv hvp
      simpa [Ne.symm hvp] using hmove v hv
    have hnew : outstanding s p x ++ [d] = outstanding t p x := by simpa using hmove p hp
    have hold := hinv p hp fun v hv hvp => by rw [hsame v hv hvp, hothers v hv hvp]
    rw [← hnew, ← hold]
    simp
  · -- the write that is executed was the only one outstanding
    have hold : outstanding s p x = d :: outstanding t p x := by simpa using hmove p hp
    have hne : outstanding s p x ≠ [] := by simp [hold]
    have hprev := hinv p hp fun v hv hvp => one_writer hs hp hv hx hne hvp
    rw [hold] at hprev
    by_cases hpw : p = w
    · subst hpw
      rw [← hprev]
      simp
    · have hrest : outstanding t p x = [] := hothers p hp hpw
      have hw' : outstanding t w x = [] := by
        have hsame : outstanding s w x = outstanding t w x := by simpa [hpw] using hmove w hw
        rw [← hsame, one_writer hs hp hw hx hne (Ne.symm hpw)]
      rw [hrest] at hprev
      rw [hw', ← hprev]
      simp

theorem orderInv {y : State × Hist} (hy : Reachable (historySystem net) (Guard.past quietRuns) y)
    (hx : x ∈ net.cores) : OrderInv net x y.1 y.2 := by
  refine Reachable.invariant (I := fun y => OrderInv net x y.1 y.2) ?_ ?_ hy
  · rintro ⟨s, h⟩ ⟨rfl, rfl⟩ w _ _
    simp [init, CoreNode.init, MutexNode.init, Hist.empty, outstanding, CoreNode.toRun,
      CoreNode.toSend, CoreNode.pending?, Pc.isInCS]
  · rintro ⟨s, h⟩ l ⟨t, k⟩ hr ih hg hst
    replace hst := history_step hst
    obtain ⟨hst, rfl⟩ := hst
    exact OrderInv.step hr.forget hx ih hst

end

/-! ## Agreement -/

/-- What agreement means for a state and its history. -/
structure Agreement (net : Mesh) (s : State) (h : Hist) : Prop where
  /-- Of the writes two nodes have executed, one list begins the other. -/
  ordered : ∀ p ∈ net.cores, ∀ q ∈ net.cores,
    h.applied p <+: h.applied q ∨ h.applied q <+: h.applied p
  /-- A node's version is the fold of what it has executed. -/
  version : ∀ p ∈ net.cores,
    (s.node p).transaction = Transaction.executeAll ⟨0⟩ ((h.applied p).map Prod.snd)
  /-- With no transaction in progress, every node holds the fold of all writes in the order in which the
      critical sections were entered. -/
  quiescent : (∀ p ∈ net.cores, (s.node p).idle = true) →
    (∀ p ∈ net.cores,
      (s.node p).transaction = Transaction.executeAll ⟨0⟩ (h.entered.map Prod.snd)) ∧
    h.submitted.Perm h.entered

section
variable {net : Mesh} {s : State} {h : Hist} {x : Int}

/-- Everything executed was entered, in that order. -/
theorem applied_begins (hs : Reachable (historySystem net) (Guard.past quietRuns) (s, h))
    (hx : x ∈ net.cores) : h.applied x <+: h.entered := by
  by_cases hsome : ∃ w ∈ net.cores, outstanding s w x ≠ []
  · -- the writer of what is outstanding is the only one
    obtain ⟨w, hw, hout⟩ := hsome
    have hinv := orderInv hs hx w hw fun v hv hvw => one_writer hs.forget hw hv hx hout hvw
    exact ⟨_, hinv⟩
  · have hinv := orderInv hs hx x hx fun v hv _ => by
      by_contra hout
      exact hsome ⟨v, hv, hout⟩
    exact ⟨_, hinv⟩

/-- With no transaction in progress, everything entered has been executed. -/
theorem applied_eq_entered (hs : Reachable (historySystem net) (Guard.past quietRuns) (s, h))
    (hidle : ∀ p ∈ net.cores, (s.node p).idle = true) (hx : x ∈ net.cores) :
    h.applied x = h.entered := by
  have hnone : ∀ w ∈ net.cores, outstanding s w x = [] := by
    intro w hw
    by_contra hout
    have hin := inCS_of_outstanding (readyInv (G := quietRuns) (fun _ _ h => h.1) hw hs.forget)
      hw hx hout
    have hpc : (s.node w).mutex.pc = .idle := by simpa [CoreNode.idle] using hidle w hw
    rw [hpc] at hin
    exact absurd hin (by simp [Pc.isInCS])
  have hinv := orderInv hs hx x hx fun v hv _ => hnone v hv
  rwa [hnone x hx, List.map_nil, List.append_nil] at hinv

theorem agreement (hs : Reachable (historySystem net) (Guard.past quietRuns) (s, h)) :
    Agreement net s h := by
  constructor
  · intro p hp q hq
    exact List.prefix_or_prefix_of_prefix (applied_begins hs hp) (applied_begins hs hq)
  · intro p _
    exact version_eq hs p
  · intro hidle
    refine ⟨?_, perm_of_select ?_⟩
    · intro p hp
      rw [← applied_eq_entered hs hidle hp]
      exact version_eq hs p
    · intro w
      -- an idle node asks for nothing, so all that was submitted has entered
      have hpc : (s.node w).mutex.pc = .idle := by
        by_cases hw : w ∈ net.cores
        · simpa [CoreNode.idle] using hidle w hw
        · rw [node_of_not_core hs.forget hw]
          rfl
      have hsub := entered_toEnter hs w
      rwa [CoreNode.toEnter, CoreNode.requesting, hpc, if_neg Bool.false_ne_true,
        List.append_nil] at hsub

/-- With no transaction in progress, any two nodes hold the same version. -/
theorem versions_agree {p q : Int} (hs : Reachable (system net) quietRuns s)
    (hidle : ∀ p ∈ net.cores, (s.node p).idle = true) (hp : p ∈ net.cores) (hq : q ∈ net.cores) :
    (s.node p).transaction = (s.node q).transaction := by
  obtain ⟨h, hpast⟩ := hs.exists_history Hist.empty (record net.layers)
  have hfold := ((agreement hpast).quiescent hidle).1
  rw [hfold p hp, hfold q hq]

/-- Submitting one transaction after another makes a quiet run. -/
theorem quiet_of_sequential {y : State × Hist}
    (hy : Reachable (historySystem net) (Guard.past (sequentialRuns net)) y) :
    Reachable (historySystem net) (Guard.past quietRuns) y := by
  have hquiet : ∀ x l z, Reachable (historySystem net) (Guard.past (sequentialRuns net)) x →
      Guard.past (sequentialRuns net) x l → (historySystem net).step x l = some z →
      Guard.past quietSend x l := by
    intro x l z hx hg hst
    exact sequential_quiet (G := sequentialRuns net) (fun _ _ h => h.1) (fun _ _ h => h.2.1)
      (fun _ _ h => h.2.2) hx.forget hg (withHistory_step.mp hst).1
  exact (hy.strengthen hquiet).mono fun x l hg => ⟨hg.1.1, hg.1.2.1, hg.2⟩

end

/-- Replica agreement of the core layer, in every run in which no node handles a `REQUEST` between reading
    its clock and finishing the send of its own; and every run in which transactions are submitted one
    after another is of this kind. -/
theorem replicas_agree (net : Mesh) (s : State) (h : Hist) :
    (Reachable (historySystem net) (Guard.past (sequentialRuns net)) (s, h) →
      Reachable (historySystem net) (Guard.past quietRuns) (s, h)) ∧
    (Reachable (historySystem net) (Guard.past quietRuns) (s, h) → Agreement net s h) :=
  ⟨quiet_of_sequential, agreement⟩

/-- Two nodes, a write of each: node `2` multiplies what node `1` has added. -/
def twoWrites : List Label :=
  [.submit 1 ⟨.sum, 5⟩, .requester 1, .requester 1, .requester 1, .requester 1,
    .handle 2 1 0, .handle 1 2 0, .requester 1, .requester 1, .requester 1, .handle 2 1 0,
    .requester 1, .requester 1, .requester 1, .handle 1 2 0, .requester 1, .requester 1,
    .requester 1, .requester 1, .requester 1, .requester 1,
    .submit 2 ⟨.multiply, 3⟩, .requester 2, .requester 2, .requester 2, .requester 2,
    .handle 2 1 0, .handle 1 2 0, .handle 2 1 0, .requester 2, .requester 2, .requester 2,
    .handle 1 2 0, .requester 2, .requester 2, .requester 2, .handle 2 1 0, .requester 2,
    .requester 2, .requester 2, .requester 2, .requester 2, .requester 2]

theorem replicas_agree_twoWrites :
    ∃ s h, Reachable (historySystem Mesh.two) (Guard.past quietRuns) (s, h) ∧
      h.entered = [(1, ⟨.sum, 5⟩), (2, ⟨.multiply, 3⟩)] ∧
      (s.node 1).transaction = ⟨15⟩ ∧ (s.node 2).transaction = ⟨15⟩ := by
  obtain ⟨⟨s, h⟩, -, hs, hP⟩ := Reachable.of_exec (historySystem Mesh.two)
    (Guard.past (sequentialRuns Mesh.two)) (init, Hist.empty) twoWrites
    (fun y => y.2.entered == [(1, ⟨.sum, 5⟩), (2, ⟨.multiply, 3⟩)] &&
      Mesh.two.cores.all fun p => (y.1.node p).idle) ⟨rfl, rfl⟩ (by decide)
  simp only [Bool.and_eq_true, beq_iff_eq, List.all_eq_true] at hP
  obtain ⟨hentered, hidle⟩ := hP
  have hquiet := (replicas_agree Mesh.two s h).1 hs
  have hall := ((replicas_agree Mesh.two s h).2 hquiet).quiescent hidle
  rw [hentered] at hall
  exact ⟨s, h, hquiet, hentered, hall.1 1 (by decide), hall.1 2 (by decide)⟩

end Core
end Epidemica
