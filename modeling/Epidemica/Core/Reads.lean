import Epidemica.Core.Counting
import Epidemica.Core.Replication

/-!
# `Core.Reads` — what a read returns

A read is executed by the node it is submitted to, with no message and no lock. In runs in which no `REQUEST`
is handled in the window of `requestCS` (`quietRuns`), the replicas make a **regular register**: a read returns
the version after all writes that have returned, and possibly after the one write in progress
(`regular_reads`). Where transactions are submitted one after another, that is the version after all that was
submitted (`submitted_eq`).
-/

namespace Epidemica

open Network Transition

namespace CoreNode

/-- Between the return of `requestCS` and the end of the wait for the `READY`s. -/
def writing (n : CoreNode) : Bool := n.mutex.pc.isInCS && !n.finished

end CoreNode

namespace Core

/-! ## Regular reads -/

/-- How many of the writes that have entered are past their wait for the `READY`s. -/
def returned (net : Mesh) (s : State) (h : Hist) : ℕ :=
  if net.cores.any fun w => (s.node w).writing then h.entered.length - 1 else h.entered.length

section
variable {net : Mesh} {s t : State} {h k : Hist} {x : Int}

/-- A node may lack the write in progress, and no other. -/
theorem applied_or_writing (hs : Reachable (historySystem net) (Guard.past quietRuns) (s, h))
    (hx : x ∈ net.cores) :
    h.applied x = h.entered ∨ ∃ w ∈ net.cores, (s.node w).writing = true ∧
      ∃ d, h.applied x ++ [(w, d)] = h.entered := by
  by_cases hsome : ∃ w ∈ net.cores, outstanding s w x ≠ []
  · right
    obtain ⟨w, hw, hout⟩ := hsome
    have hready := readyInv (G := quietRuns) (fun _ _ h => h.1) hw hs.forget
    have hinv := orderInv hs hx w hw fun v hv hvw => one_writer hs.forget hw hv hx hout hvw
    refine ⟨w, hw, ?_, ?_⟩
    · -- past the wait nothing would be outstanding
      have hin := inCS_of_outstanding hready hw hx hout
      have hunfinished : (s.node w).finished = false := by
        by_contra hfin
        refine hout (hready.finished (by simpa using hfin) ?_)
        exact (eq_or_ne x w).imp_right fun hxw => (net.mem_peers hw).mpr ⟨hx, hxw⟩
      simp [CoreNode.writing, hin, hunfinished]
    · have hone : (outstanding s w x).length ≤ 1 := by
        unfold outstanding
        split
        · unfold CoreNode.toRun
          split
          · split <;> simp
          · simp
        · rename_i hxw
          rw [List.length_append]
          exact hready.one_way ((net.mem_peers hw).mpr ⟨hx, hxw⟩)
      obtain ⟨d, rest, hd⟩ := List.exists_cons_of_ne_nil hout
      have hrest : rest = [] := by
        rw [hd, List.length_cons] at hone
        exact List.eq_nil_of_length_eq_zero (by omega)
      have hinv : h.applied x ++ (outstanding s w x).map (fun d => (w, d)) = h.entered := hinv
      rw [hd, hrest] at hinv
      exact ⟨d, hinv⟩
  · left
    have hinv : h.applied x ++ (outstanding s x x).map (fun d => (x, d)) = h.entered :=
      orderInv hs hx x hx fun v hv _ => by
        by_contra hout
        exact hsome ⟨v, hv, hout⟩
    have hnone : outstanding s x x = [] := by
      by_contra hout
      exact hsome ⟨x, hx, hout⟩
    rwa [hnone, List.map_nil, List.append_nil] at hinv

/-- So it has executed all the writes that have returned. -/
theorem returned_le (hs : Reachable (historySystem net) (Guard.past quietRuns) (s, h))
    (hx : x ∈ net.cores) : returned net s h ≤ (h.applied x).length := by
  rcases applied_or_writing hs hx with heq | ⟨w, hw, hwriting, d, heq⟩
  · unfold returned
    rw [heq]
    split <;> omega
  · have hsome : (net.cores.any fun w => (s.node w).writing) = true :=
      List.any_eq_true.mpr ⟨w, hw, hwriting⟩
    rw [returned, if_pos hsome, ← heq, List.length_append, List.length_singleton]
    omega

theorem entered_le : h.entered.length ≤ returned net s h + 1 := by
  unfold returned
  split <;> omega

/-- Executed writes stay executed, and entered ones entered. -/
theorem hist_grows {G : Guard (State × Hist) Label} (hrun : Run (historySystem net) G (s, h) (t, k)) :
    h.entered <+: k.entered ∧ ∀ x, h.applied x <+: k.applied x := by
  refine Run.preserves (I := fun y => h.entered <+: y.2.entered ∧ ∀ x, h.applied x <+: y.2.applied x)
    ?_ hrun ⟨List.prefix_rfl, fun _ => List.prefix_rfl⟩
  rintro ⟨s, h⟩ l ⟨t, k⟩ ⟨hentered, happlied⟩ - hst
  replace hst := history_step hst
  obtain ⟨-, rfl⟩ := hst
  exact ⟨hentered.trans (List.prefix_append _ _), fun x => (happlied x).trans (List.prefix_append _ _)⟩

/-- A node holds the version after what it has executed, and later writes do not change which that is. -/
theorem version_applied (hs : Reachable (historySystem net) (Guard.past quietRuns) (s, h))
    (hx : x ∈ net.cores) {es : List (Int × TransactionData)} (hes : h.entered <+: es) :
    (s.node x).transaction.version = versionAt es (h.applied x).length := by
  obtain ⟨r, hr⟩ := (applied_begins hs hx).trans hes
  have hfold : (s.node x).transaction = Transaction.executeAll ⟨0⟩ ((h.applied x).map Prod.snd) :=
    version_eq hs x
  rw [← hr, versionAt_append (Nat.le_refl _), versionAt_length, hfold]

end

/-- Reads are regular. Let `x` be read at one moment of a run and `y` at a later one. They return the
    versions after some `m` and some `n` writes, in the order in which the critical sections were entered:
    at least all the writes that had returned, and at most all that had entered. The later read is behind
    by one write at most, and on the same node it is not behind. -/
theorem regular_reads (net : Mesh) (s t : State) (h k : Hist)
    (hs : Reachable (historySystem net) (Guard.past quietRuns) (s, h))
    (hrun : Run (historySystem net) (Guard.past quietRuns) (s, h) (t, k)) (x y : Int)
    (hx : x ∈ net.cores) (hy : y ∈ net.cores) :
    ∃ m n, (s.node x).transaction.version = versionAt k.entered m ∧
      (t.node y).transaction.version = versionAt k.entered n ∧
      returned net s h ≤ m ∧ m ≤ h.entered.length ∧ returned net t k ≤ n ∧ n ≤ k.entered.length ∧
      returned net s h ≤ n ∧ m ≤ n + 1 ∧ (x = y → m ≤ n) := by
  have ht := hs.run hrun
  obtain ⟨hentered, happlied⟩ := hist_grows hrun
  have hm := (applied_begins hs hx).length_le
  have hone : h.entered.length ≤ returned net s h + 1 := entered_le
  have hlater : returned net s h ≤ (k.applied y).length :=
    Nat.le_trans (returned_le hs hy) (happlied y).length_le
  refine ⟨(h.applied x).length, (k.applied y).length, version_applied hs hx hentered,
    version_applied ht hy List.prefix_rfl, returned_le hs hx, hm, returned_le ht hy,
    (applied_begins ht hy).length_le, hlater, by omega, ?_⟩
  rintro rfl
  exact (happlied x).length_le

/-- Node `2` has executed a write of node `1` that node `1` has not: a read there returns `5`, and a later one
    of node `1` still returns `0`. -/
def halfWritten : List Label :=
  [.submit 1 ⟨.sum, 5⟩, .requester 1, .requester 1, .requester 1, .requester 1,
    .handle 2 1 0, .handle 1 2 0, .requester 1, .requester 1, .handle 2 1 0]

theorem regular_reads_halfWritten :
    ∃ s h, Reachable (historySystem Mesh.two) (Guard.past quietRuns) (s, h) ∧
      (s.node 2).transaction.version = 5 ∧ (s.node 1).transaction.version = 0 ∧
      returned Mesh.two s h = 0 ∧
      ∃ m n, versionAt h.entered m = 5 ∧ versionAt h.entered n = 0 ∧ m ≤ h.entered.length ∧ m ≤ n + 1 := by
  obtain ⟨⟨s, h⟩, -, hs, hP⟩ := Reachable.of_exec (historySystem Mesh.two) (Guard.past quietRuns)
    (init, Hist.empty) halfWritten
    (fun y => (y.1.node 2).transaction.version == 5 && (y.1.node 1).transaction.version == 0 &&
      returned Mesh.two y.1 y.2 == 0) ⟨rfl, rfl⟩ (by decide)
  simp only [Bool.and_eq_true, beq_iff_eq] at hP
  obtain ⟨⟨h₂, h₁⟩, hreturned⟩ := hP
  obtain ⟨m, n, hm, hn, -, hle, -, -, -, hmn, -⟩ :=
    regular_reads Mesh.two s s h h hs Run.refl 2 1 (by decide) (by decide)
  exact ⟨s, h, hs, h₂, h₁, hreturned, m, n, hm ▸ h₂, hn ▸ h₁, hle, hmn⟩

/-! ## One transaction after another -/

section
variable {net : Mesh} {G : Guard State Label} {s t : State} {h : Hist}

/-- What is submitted and has not entered is the write of the thread at work. -/
structure SubmittedInv (net : Mesh) (y : State × Hist) : Prop where
  rest : (∀ p ∈ net.cores, (y.1.node p).idle = true) → y.2.submitted = y.2.entered
  busy : ∀ p ∈ net.cores, (y.1.node p).idle = false →
    y.2.submitted = y.2.entered ++ (y.1.node p).toEnter.map fun d => (p, d)

theorem toEnter_of_idle {n : CoreNode} (h : n.idle = true) : n.toEnter = [] := by
  have hpc : n.mutex.pc = .idle := by simpa [CoreNode.idle] using h
  simp [CoreNode.toEnter, CoreNode.requesting, hpc]

/-- A step in which nothing but the write of `p` is submitted or enters. -/
theorem submitted_step {p : Int} {l : Label} (sub ent : List TransactionData)
    (hst : (system net).step s l = some t)
    (hold : h.submitted = h.entered ++ (s.node p).toEnter.map fun d => (p, d))
    (hsub : submitting l = sub.map fun d => (p, d))
    (hent : entering net.layers s l = ent.map fun d => (p, d)) :
    (record net.layers s l h).submitted =
      (record net.layers s l h).entered ++ (t.node p).toEnter.map fun d => (p, d) := by
  have hstep := toEnter_step (w := p) hst
  rw [hsub, hent, select_map, select_map, if_pos rfl, if_pos rfl] at hstep
  calc h.submitted ++ submitting l
      = h.entered ++ ((s.node p).toEnter ++ sub).map fun d => (p, d) := by
        rw [hold, hsub, List.map_append, List.append_assoc]
    _ = h.entered ++ entering net.layers s l ++ (t.node p).toEnter.map fun d => (p, d) := by
        rw [hstep, hent, List.map_append, List.append_assoc]

theorem submittedInv (hseq : ∀ s l, G s l → sequential net s l) {y : State × Hist}
    (hy : Reachable (historySystem net) (Guard.past G) y) : SubmittedInv net y := by
  refine Reachable.invariant (I := SubmittedInv net) ?_ ?_ hy
  · rintro ⟨s, h⟩ ⟨rfl, rfl⟩
    exact ⟨fun _ => rfl, fun p _ h => absurd h (by simp [init, CoreNode.init, MutexNode.init, CoreNode.idle])⟩
  · rintro ⟨s, h⟩ l ⟨t, k⟩ hr ⟨hrest, hbusy⟩ hg hst
    replace hst := history_step hst
    obtain ⟨hst, rfl⟩ := hst
    cases l with
    | submit p d =>
      obtain ⟨hp, hidle, ht⟩ := step_submit hst
      have hall : ∀ q ∈ net.cores, (s.node q).idle = true := hseq _ _ hg
      have hnext := submitted_step (p := p) (h := h) (if d.type = .read then [] else [d]) [] hst
        (by rw [toEnter_of_idle hidle, List.map_nil, List.append_nil]; exact hrest hall)
        (by by_cases hd : d.type = .read <;> simp [submitting, hd]) rfl
      constructor
      · intro hidle'
        rwa [toEnter_of_idle (hidle' p hp), List.map_nil, List.append_nil] at hnext
      · intro q hq hbusy
        have hqp : q = p := by
          by_contra hqp
          have hbusy : (t.node q).idle = false := hbusy
          rw [ht, put_node, if_neg hqp, hall q hq] at hbusy
          exact absurd hbusy (by simp)
        exact hqp ▸ hnext
    | requester p =>
      obtain ⟨hp, hidle, ht⟩ := step_requester hst
      have hnext := submitted_step (p := p) (h := h) []
        (if (s.node p).enters (net.layers p) p then [(s.node p).trans] else []) hst
        (hbusy p hp hidle) rfl
        (by by_cases henter : (s.node p).enters (net.layers p) p <;> simp [entering, henter])
      constructor
      · intro hidle'
        rwa [toEnter_of_idle (hidle' p hp), List.map_nil, List.append_nil] at hnext
      · intro q hq hbusy
        have hqp : q = p := by
          by_contra hqp
          have hbusy : (t.node q).idle = false := hbusy
          rw [ht, put_node, if_neg hqp] at hbusy
          exact hqp (solo (fun _ _ h => hseq _ _ h) hr.forget hq hp hbusy hidle)
        exact hqp ▸ hnext
    | handle p q i =>
      have hsame : ∀ x, (t.node x).idle = (s.node x).idle := by
        intro x
        obtain ⟨-, -, m, -, ht⟩ := step_handle hst
        rw [ht, put_node]
        split
        · rename_i hxp
          subst hxp
          obtain ⟨-, -, -, hpc⟩ := CoreNode.handleMsg_pending? (L := net.layers x) (n := s.node x) x m q
          simp only [CoreNode.idle, hpc]
        · rfl
      constructor
      · intro hidle
        have hold := hrest fun x hx => (hsame x).symm.trans (hidle x hx)
        simpa [record, submitting, entering] using hold
      · intro x hx hbusy'
        have hold := hbusy x hx ((hsame x).symm.trans hbusy')
        exact submitted_step [] [] hst hold rfl rfl
    | drain a b =>
      obtain ⟨-, -, rfl⟩ := step_drain net.layers hst
      constructor
      · intro hidle
        have hold := hrest hidle
        simpa [record, submitting, entering] using hold
      · intro x hx hbusy'
        exact submitted_step [] [] hst (hbusy x hx hbusy') rfl rfl

/-- At rest the writes have entered in the order in which they were submitted. -/
theorem submitted_eq (hseq : ∀ s l, G s l → sequential net s l) {h : Hist}
    (hs : Reachable (historySystem net) (Guard.past G) (s, h))
    (hidle : ∀ p ∈ net.cores, (s.node p).idle = true) : h.submitted = h.entered :=
  (submittedInv hseq hs).rest hidle

end

end Core
end Epidemica
