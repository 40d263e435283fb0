import Epidemica.Controller.Deployment

/-!
# `Controller.Delivery` — what is in the files arrives

In a fair run from where all nodes are connected, with waits that test their predicate again and again, each
call of a callback is made, since the one before it returns. So once the watcher calls the callback no more
the calls come to an end, and with them what is submitted to the core layer; the layers then agree as in
`Propagation.Convergence`, on what the store holds after the same calls.
-/

namespace Epidemica
namespace Deployment

open Network Transition Filter Controller

/-- What cannot be put off for ever: the calls of a callback, and the work of the nodes, with their waits. -/
def works : Label → Prop
  | .modified _ _ _ => False
  | .call => True
  | .net l => Propagation.works l

/-- Runs in which read-only batches hold only reads. -/
abbrev honestRuns : Guard State Label := fun s l => fifo s l ∧ honest s l

/-- Runs from where all nodes are connected, finite or not, with read-only batches that hold only reads. -/
abbrev Runs := Path historySystem (Guard.past honestRuns)

section
variable {s t : State} {h k : Hist} {ρ : Runs}

/-- No call below the core layer writes. -/
theorem asked_honest (hy : Reachable historySystem (Guard.past honestRuns) (s, h)) :
    ∀ c ∈ h.asked, (∃ i, c.1 = .core i) ∨ c.2.type = .read := by
  refine Reachable.invariant (I := fun y => ∀ c ∈ y.2.asked, (∃ i, c.1 = .core i) ∨ c.2.type = .read)
    ?_ ?_ hy
  · rintro ⟨s, h⟩ ⟨rfl, rfl⟩ c hc
    exact absurd hc (by simp [Hist.empty])
  · rintro ⟨s, h⟩ l ⟨t, k⟩ - ih hg hst
    replace hst := history_step hst
    obtain ⟨-, rfl⟩ := hst
    cases l with
    | modified filename uninit file =>
      intro c hc
      rcases List.mem_append.mp hc with hc | hc
      · exact ih c hc
      · cases hread : (readTransactions uninit file).readOnly with
        | false => exact Or.inl (callback_core hread hc)
        | true => exact Or.inr (hg.2 hread c.2 (mem_callback hc))
    | call => exact ih
    | net l => exact ih

theorem calls_honest (hy : Reachable historySystem (Guard.past honestRuns) (s, h)) :
    ∀ c ∈ s.calls, (∃ i, c.1 = .core i) ∨ c.2.type = .read := by
  intro c hc
  have horder : h.made ++ s.calls = h.asked := (watcherInv hy).inOrder
  exact asked_honest hy c (horder ▸ List.mem_append_right _ hc)

/-- With the watcher forgotten. -/
def netView : Lockstep historySystem (Guard.past honestRuns) (Propagation.historySystem Tree.controller)
    (Guard.past (Propagation.onCore (Core.sequentialRuns Tree.controller.mesh))) where
  abs y := (y.1.net, y.2.net)
  label y l := toNet y.1 l
  init := by
    rintro ⟨s, h⟩ ⟨rfl, rfl⟩
    exact ⟨rfl, rfl⟩
  step := by
    rintro ⟨s, h⟩ l ⟨t, k⟩ hr hg hst
    replace hst := history_step hst
    obtain ⟨hst, rfl⟩ := hst
    rcases net_cases (watcherInv hr) hg.1 hst with ⟨m, hm, hnet, hseq⟩ | ⟨hm, -, hsame⟩
    · rw [hm]
      exact ⟨hseq, withHistory_step.mpr ⟨hnet, by simp only [record, hm]⟩⟩
    · rw [hm]
      show (t.net, (record s l h).net) = (s.net, h.net)
      rw [hsame (calls_honest hr)]
      simp only [record, hm]

theorem fair_netView (hfair : ρ.Fair works) : (ρ.image netView).Fair Propagation.works := by
  refine hfair.image _ fun l hl => ⟨.net l, hl, ?_⟩
  rintro ⟨s, h⟩ -
  refine ⟨rfl, fun ⟨hg, hsome⟩ => ⟨⟨?_, trivial⟩, ?_⟩⟩
  · cases l with
    | core l => exact hg.2.1
    | _ => trivial
  · have hsome : ((Propagation.historySystem Tree.controller).step (s.net, h.net) l).isSome = true := hsome
    cases l with
    | core l =>
      cases l with
      | submit p d => exact hl.elim
      | _ => simpa [Propagation.historySystem, Propagation.system, historySystem, System.withHistory,
          system, step] using hsome
    | _ => simpa [Propagation.historySystem, Propagation.system, historySystem, System.withHistory,
        system, step] using hsome

/-! ## The calls come to an end -/

/-- While calls are left only a call changes what the watcher's thread is at. -/
theorem watcher_step {l : Label} (hst : step s l = some t) (hl : l ≠ .call) (hne : s.calls ≠ []) :
    t.calls = s.calls ∧ t.caller = s.caller ∧ ∀ p, (s.net.core.node p).idle = true →
      (t.net.core.node p).idle = true := by
  cases l with
  | modified filename uninit file =>
    obtain ⟨hnil, -, -⟩ := step_modified hst
    exact absurd hnil hne
  | call => exact absurd rfl hl
  | net l =>
    obtain ⟨hsubmit, net, hnet, rfl⟩ := step_net hst
    refine ⟨rfl, rfl, fun p hidle => ?_⟩
    rcases Propagation.core_step hnet with ⟨m, hm, hcore⟩ | ⟨-, hcore⟩
    · refine Core.idle_step Tree.controller.mesh hcore (fun d hd => ?_) hidle
      subst hd
      cases l with
      | core l => exact absurd (congrArg _ (Option.some.inj hm)) (hsubmit p d)
      | _ => exact absurd hm (by simp [Propagation.Label.toCore])
    · show (net.core.node p).idle = true
      rwa [hcore]

theorem enabled_call (hy : Reachable historySystem (Guard.past honestRuns) (s, h)) (hne : s.calls ≠ [])
    (hreturned : s.returned = true) : Enabled historySystem (Guard.past honestRuns) (s, h) .call := by
  refine ⟨⟨trivial, trivial⟩, ?_⟩
  obtain ⟨⟨x, d⟩, calls, hcalls⟩ := List.exists_cons_of_ne_nil hne
  have hidle := (watcherInv hy).idle hreturned
  cases x with
  | core i =>
    have hsubmit := hidle _ (id_mem i)
    simp only at hsubmit
    simp [historySystem, System.withHistory, system, step, hcalls, hreturned, perform, Propagation.step,
      Core.step, id_mem i, hsubmit]
  | one j => simp [historySystem, System.withHistory, system, step, hcalls, hreturned, perform]
  | two k => simp [historySystem, System.withHistory, system, step, hcalls, hreturned, perform]

/-- The next call is made. -/
theorem exists_call (hfair : ρ.Fair works) {i : ℕ} (hne : (ρ.state i).1.calls ≠ []) :
    ∃ j, i ≤ j ∧ ρ.label j = some .call := by
  by_contra hnot
  have hnext : ∀ j, i ≤ j → (ρ.state j).1.calls ≠ [] → (ρ.state (j + 1)).1.calls = (ρ.state j).1.calls ∧
      (ρ.state (j + 1)).1.caller = (ρ.state j).1.caller ∧
      ∀ p, ((ρ.state j).1.net.core.node p).idle = true →
        ((ρ.state (j + 1)).1.net.core.node p).idle = true := by
    intro j hij hne
    cases hlabel : ρ.label j with
    | none =>
      rw [ρ.still hlabel]
      exact ⟨rfl, rfl, fun _ h => h⟩
    | some l =>
      have hl : l ≠ .call := by
        rintro rfl
        exact hnot ⟨j, hij, hlabel⟩
      exact watcher_step (withHistory_step.mp (ρ.taken hlabel).2).1 hl hne
  have hsame : ∀ j, i ≤ j → (ρ.state j).1.calls = (ρ.state i).1.calls ∧
      (ρ.state j).1.caller = (ρ.state i).1.caller := by
    intro j hij
    induction j, hij using Nat.le_induction with
    | base => exact ⟨rfl, rfl⟩
    | succ j hij ih =>
      obtain ⟨hcalls, hcaller, -⟩ := hnext j hij (ih.1 ▸ hne)
      exact ⟨hcalls.trans ih.1, hcaller.trans ih.2⟩
  -- the call before it returns, and then this one stays enabled
  obtain ⟨m, him, hreturned⟩ : ∃ m, i ≤ m ∧ ∀ j, m ≤ j → (ρ.state j).1.returned = true := by
    cases hcaller : (ρ.state i).1.caller with
    | none =>
      refine ⟨i, Nat.le_refl i, fun j hij => ?_⟩
      rw [State.returned, (hsame j hij).2, hcaller]
      rfl
    | some p =>
      have hp := (watcherInv (ρ.reachable i)).caller p hcaller
      have hdrain : ∀ s a b, Core.sequentialRuns Tree.controller.mesh s (.drain a b) :=
        fun _ _ _ => ⟨trivial, trivial, trivial⟩
      obtain ⟨m, him, hm⟩ := frequently_atTop.mp
        (Core.frequently_idle (Propagation.admits_sequential Tree.controller.mesh) hp
          (Propagation.fair_coreView hdrain (fair_netView hfair))) i
      have hidle : ∀ j, m ≤ j → ((ρ.state j).1.net.core.node p).idle = true := by
        intro j hmj
        induction j, hmj using Nat.le_induction with
        | base => exact hm
        | succ j hmj ih =>
          have hij := Nat.le_trans him hmj
          exact (hnext j hij ((hsame j hij).1 ▸ hne)).2.2 p ih
      refine ⟨m, him, fun j hmj => ?_⟩
      rw [State.returned, (hsame j (Nat.le_trans him hmj)).2, hcaller]
      exact hidle j hmj
  obtain ⟨j, hmj, hj⟩ := hfair .call trivial m fun j hmj =>
    enabled_call (ρ.reachable j) ((hsame j (Nat.le_trans him hmj)).1 ▸ hne) (hreturned j hmj)
  exact hnot ⟨j, Nat.le_trans him hmj, hj⟩

/-- From some time on no file is modified. -/
def Ends (ρ : Runs) : Prop :=
  ∀ᶠ i in atTop, ∀ filename uninit file, ρ.label i ≠ some (.modified filename uninit file)

/-- Then all calls are made in the end, and it stays at these. -/
theorem eventually_made (hfair : ρ.Fair works) (hends : Ends ρ) :
    ∃ calls, ∀ᶠ i in atTop, (ρ.state i).1.calls = [] ∧ (ρ.state i).2.asked = calls ∧
      (ρ.state i).2.made = calls := by
  obtain ⟨N, hN⟩ := eventually_atTop.mp hends
  have hnext : ∀ j, N ≤ j → (ρ.state (j + 1)).2.asked = (ρ.state j).2.asked ∧
      (ρ.state (j + 1)).1.calls.length ≤ (ρ.state j).1.calls.length ∧
      (ρ.label j = some .call → (ρ.state (j + 1)).1.calls.length < (ρ.state j).1.calls.length) := by
    intro j hj
    cases hlabel : ρ.label j with
    | none =>
      rw [ρ.still hlabel]
      exact ⟨rfl, Nat.le_refl _, fun h => absurd h (by simp)⟩
    | some l =>
      obtain ⟨hst, hrecord⟩ := withHistory_step.mp (ρ.taken hlabel).2
      rw [hrecord]
      cases l with
      | modified filename uninit file => exact absurd hlabel (hN j hj filename uninit file)
      | call =>
        obtain ⟨c, calls, net, hcalls, -, -, ht⟩ := step_call hst
        rw [ht, hcalls, List.length_cons]
        exact ⟨rfl, Nat.le_succ _, fun _ => Nat.lt_succ_self _⟩
      | net l =>
        obtain ⟨-, net, -, ht⟩ := step_net hst
        rw [ht]
        exact ⟨rfl, Nat.le_refl _, fun h => absurd h (by simp)⟩
  have hshrink : ∀ j k, N ≤ j → j ≤ k → (ρ.state k).1.calls.length ≤ (ρ.state j).1.calls.length := by
    intro j k hNj hjk
    induction k, hjk using Nat.le_induction with
    | base => exact Nat.le_refl _
    | succ k hjk ih => exact Nat.le_trans (hnext k (Nat.le_trans hNj hjk)).2.1 ih
  obtain ⟨M, hNM, hM⟩ : ∃ M, N ≤ M ∧ (ρ.state M).1.calls = [] := by
    refine Path.leads_of_measure (P := fun j => N ≤ j) (fun j => (ρ.state j).1.calls.length) ?_
      (Nat.le_refl N)
    intro j hj
    by_cases hnil : (ρ.state j).1.calls = []
    · exact ⟨j, Nat.le_refl j, Or.inl hnil⟩
    · obtain ⟨k, hjk, hk⟩ := exists_call hfair hnil
      have hle := hshrink j k hj hjk
      have hlt := (hnext k (Nat.le_trans hj hjk)).2.2 hk
      exact ⟨k + 1, by omega, Or.inr ⟨by omega, by omega⟩⟩
  refine ⟨(ρ.state M).2.asked, eventually_atTop.mpr ⟨M, fun i hi => ?_⟩⟩
  have hnil : (ρ.state i).1.calls = [] := by
    apply List.eq_nil_of_length_eq_zero
    have hle := hshrink M i hNM hi
    rw [hM, List.length_nil] at hle
    omega
  have hasked : (ρ.state i).2.asked = (ρ.state M).2.asked := by
    induction i, hi using Nat.le_induction with
    | base => rfl
    | succ i hi ih =>
      have hle := hshrink M i hNM hi
      rw [hM, List.length_nil] at hle
      exact (hnext i (Nat.le_trans hNM hi)).1.trans (ih (List.eq_nil_of_length_eq_zero (by omega)))
  have horder : (ρ.state i).2.made ++ (ρ.state i).1.calls = (ρ.state i).2.asked :=
    (watcherInv (ρ.reachable i)).inOrder
  rw [hnil, List.append_nil] at horder
  exact ⟨hnil, hasked, horder.trans hasked⟩

/-! ## The result -/

theorem one_below (j : OneName) : (Node.core (above j)).id ∈ Tree.controller.mesh.cores ∧
    (Node.one j).id ∈ Tree.controller.mesh.layers (Node.core (above j)).id LAYER_ONE := by
  cases j <;> decide

theorem two_below (k : TwoName) : (Node.one .b2).id ∈ Tree.controller.ones ∧
    (Node.two k).id ∈ Tree.controller.layerTwo (Node.one .b2).id := by
  cases k <;> decide

/-- What is in the files reaches all layers. If waits test their predicate again and again, and from some time
    on the watcher lets no event through, then all the calls that the contents of the files ask for are made,
    and in the end every node of every layer holds what the store holds after them, with the versions of layer
    one sent down. -/
theorem files_reach_all_layers (ρ : Runs) (hfair : ρ.Fair works) (hends : Ends ρ) :
    ∃ calls, ∀ᶠ i in atTop, (ρ.state i).2.asked = calls ∧ (ρ.state i).2.made = calls ∧
      ∀ x, (ρ.state i).1.transaction x =
        (((Store.init.run calls).broadcast .b1).broadcast .b2).transaction x := by
  obtain ⟨calls, hmade⟩ := eventually_made hfair hends
  -- nothing is submitted any more
  have hquiet : Propagation.Ends (ρ.image netView) := by
    filter_upwards [hmade] with i hmade p d hlabel
    have hlabel : (ρ.label i).bind (toNet (ρ.state i).1) = some (.core (.submit p d)) := hlabel
    obtain ⟨l, hl, hnet⟩ := Option.bind_eq_some_iff.mp hlabel
    have hst := (withHistory_step.mp (ρ.taken hl).2).1
    cases l with
    | modified filename uninit file => exact absurd hnet (by simp [toNet])
    | call =>
      obtain ⟨c, rest, net, hcalls, -⟩ := step_call hst
      exact absurd (hmade.1.symm.trans hcalls) (by simp)
    | net l => exact absurd (Option.some.inj hnet) ((step_net hst).1 p d)
  have hfair' := fair_netView hfair
  obtain ⟨es, hrest⟩ := Propagation.eventually_rest hfair' hquiet
  have hone : ∀ j : OneName, ∀ᶠ i in atTop,
      ((ρ.state i).1.net.one (Node.one j).id).transaction.version = versionAt es (10 * (es.length / 10)) := by
    intro j
    obtain ⟨ha, hb⟩ := one_below j
    exact Propagation.eventually_one hfair' hrest ha hb
  have htwo : ∀ k : TwoName, ∀ᶠ i in atTop,
      ((ρ.state i).1.net.two (Node.two k).id).transaction.version = versionAt es (10 * (es.length / 10)) := by
    intro k
    obtain ⟨hb, hc⟩ := two_below k
    exact Propagation.eventually_two hfair' hb hc (hone .b2)
  refine ⟨calls, ?_⟩
  filter_upwards [hmade, hrest, hone .b1, hone .b2, htwo .c1, htwo .c2] with i hmade hrest h₁ h₂ h₃ h₄
  obtain ⟨-, hasked, hmade⟩ := hmade
  obtain ⟨hentered, hcore⟩ := core_at_rest (fun _ _ h => h.1) (ρ.reachable i) hrest.1
  rw [hmade] at hentered hcore
  have hes : es = coreWrites calls := hrest.2.symm.trans hentered
  have hrun : Store.init.run calls = Store.init.writes (es.map Prod.snd) := by
    rw [hes]
    exact run_eq_writes _ (hasked ▸ asked_honest (ρ.reachable i))
  have hstore : ∀ j, (Store.init.run calls).transaction (.one j) =
      ⟨versionAt es (10 * (es.length / 10))⟩ := by
    intro j
    rw [hrun]
    exact congrArg Transaction.mk ((Store.writes_init es).2.2 j)
  refine ⟨hasked, hmade, fun x => ?_⟩
  cases x with
  | core j => exact hcore j
  | one j =>
    refine Eq.trans ?_ (hstore j).symm
    cases j with
    | b1 => exact congrArg Transaction.mk h₁
    | b2 => exact congrArg Transaction.mk h₂
  | two k =>
    have hdown : (((Store.init.run calls).broadcast .b1).broadcast .b2).transaction (.two k) =
        ⟨((Store.init.run calls).transaction (.one .b2)).version⟩ := by
      cases k <;> rfl
    rw [hdown, hstore]
    cases k with
    | c1 => exact congrArg Transaction.mk h₃
    | c2 => exact congrArg Transaction.mk h₄

/-- The labels that fairness is about, by number. -/
def workName : Option ((Int ⊕ Int × Int × ℕ) ⊕ (Int × Int) ⊕ Int ⊕ Int × Int) → Label
  | none => .call
  | some x => .net (Propagation.workName x)

theorem works_workName (x) : works (workName x) := by
  cases x with
  | none => trivial
  | some x => exact Propagation.works_workName x

theorem exists_workName (l : Label) (hl : works l) : ∃ x, workName x = l := by
  cases l with
  | modified _ _ _ => exact hl.elim
  | call => exact ⟨none, rfl⟩
  | net l =>
    obtain ⟨x, rfl⟩ := Propagation.exists_workName l hl
    exact ⟨some x, rfl⟩

/-- A batch of writes for `A1` and a read-only one for layer two, each modified while nothing is running. -/
theorem files_reach_all_layers_twoFiles :
    ∃ (ρ : Runs) (n : ℕ), ρ.Fair works ∧ Ends ρ ∧
      (ρ.state n).2.asked = [(.two .c1, ⟨.read, 0⟩), (.two .c2, ⟨.read, 0⟩), (.core .a1, ⟨.sum, 3⟩)] ∧
      ∃ calls, ∀ᶠ i in atTop, (ρ.state i).2.asked = calls ∧ (ρ.state i).2.made = calls ∧
        ∀ x, (ρ.state i).1.transaction x =
          (((Store.init.run calls).broadcast .b1).broadcast .b2).transaction x := by
  obtain ⟨y, -, hy, hP⟩ := Reachable.of_exec historySystem (Guard.past honestRuns) (init, Hist.empty)
    [.modified "A1_Transactions.txt".toList (0, false) (some "b2, r(4)".toList), .call, .call,
      .modified "A1_Transactions.txt".toList (0, false) (some "b, w(sum,3)".toList)]
    (fun y => y.2.asked == [(.two .c1, ⟨.read, 0⟩), (.two .c2, ⟨.read, 0⟩), (.core .a1, ⟨.sum, 3⟩)])
    ⟨rfl, rfl⟩ (by decide +kernel)
  obtain ⟨ρ, n, hfair, rfl, hworks⟩ := exists_fair workName works_workName exists_workName hy
  have hends : Ends ρ := by
    refine eventually_atTop.mpr ⟨n, fun i hi filename uninit file hlabel => ?_⟩
    exact hworks i hi _ hlabel
  exact ⟨ρ, n, hfair, hends, eq_of_beq hP, files_reach_all_layers ρ hfair hends⟩

end

end Deployment
end Epidemica
