import Epidemica.Propagation.Snapshots
import Epidemica.Core.Starvation

/-!
# `Propagation.Convergence` — in the end all layers agree

A fair run with waits that test their predicate again and again, in which no write is submitted any more,
comes to rest, layer by layer: every transaction returns, since no thread starves; the snapshots under way
arrive at layer one; and the `Run` threads bring layer two what layer one then holds. So for ever after the
core layer holds the last version and the layers below hold the version of the last tenth write.
-/

namespace Epidemica
namespace Propagation

open Network Transition Filter

/-- What cannot be put off for ever: statements of the client and `Run` threads, with the waits of
    `Core.works`, and the handling of messages. -/
def works : Label → Prop
  | .core l => Core.works l
  | .handleOne _ _ | .run _ | .handleTwo _ _ => True

/-! ## The core layer -/

section
variable {T : Tree} {G : Guard Core.State Core.Label}

/-- The core layer inside, step by step. -/
def coreView (hdrain : ∀ s a b, G s (.drain a b)) :
    Lockstep (historySystem T) (Guard.past (onCore G)) (Core.system T.mesh) G where
  abs y := y.1.core
  label _ l := l.toCore
  init := by
    rintro ⟨s, h⟩ ⟨rfl, rfl⟩
    rfl
  step := by
    rintro ⟨s, h⟩ l ⟨t, k⟩ - hg hst
    obtain ⟨hst, -⟩ := history_step hst
    rcases core_step hst with ⟨m, hl, hcore⟩ | ⟨hl, hcore⟩
    · rw [hl]
      refine ⟨?_, hcore⟩
      cases l with
      | core l => exact Option.some.inj hl ▸ hg
      | handleOne a b => exact Option.some.inj hl ▸ hdrain _ _ _
      | _ => exact absurd hl (by simp [Label.toCore])
    · rw [hl]
      exact hcore

theorem fair_coreView (hdrain : ∀ s a b, G s (.drain a b))
    {ρ : Path (historySystem T) (Guard.past (onCore G))} (hfair : ρ.Fair works) :
    (ρ.image (coreView hdrain)).Fair Core.works := by
  refine hfair.image _ fun l hl => ⟨.core l, hl, ?_⟩
  rintro ⟨s, h⟩ -
  refine ⟨rfl, fun ⟨hg, hsome⟩ => ⟨hg, ?_⟩⟩
  have hsome : (Core.step T.mesh.cores T.mesh.layers s.core l).isSome = true := hsome
  cases l with
  | submit _ _ | drain _ _ => exact hl.elim
  | requester _ | handle _ _ _ => simpa [historySystem, System.withHistory, system, step] using hsome

end

section
variable {T : Tree} {a b c : Int}

/-- Fair runs in which transactions come one after another. -/
abbrev Runs (T : Tree) := Path (historySystem T) (Guard.past (onCore (Core.sequentialRuns T.mesh)))

variable {ρ : Runs T}

theorem taken_step {i : ℕ} {l : Label} (hlabel : ρ.label i = some l) :
    step T (ρ.state i).1 l = some (ρ.state (i + 1)).1 :=
  (withHistory_step.mp (ρ.taken hlabel).2).1

/-- From some time on nothing but reads is submitted. -/
def Ends (ρ : Runs T) : Prop :=
  ∀ᶠ i in atTop, ∀ p d, ρ.label i = some (.core (.submit p d)) → d.type = .read

theorem admits_sequential (net : Mesh) : Core.Admits (Core.sequentialRuns net) :=
  ⟨fun _ _ h => h.1, fun _ _ h => h.2.1, fun _ _ => ⟨trivial, trivial, trivial⟩,
    fun _ _ _ => ⟨trivial, rfl, trivial⟩⟩

/-- With no transaction in progress nothing enters the critical section. -/
theorem entered_step {s t : State} {h k : Hist} {l : Label}
    (hst : (historySystem T).step (s, h) l = some (t, k))
    (hidle : ∀ p ∈ T.mesh.cores, (s.core.node p).idle = true) : k.core.entered = h.core.entered := by
  replace hst := history_step hst
  obtain ⟨hst, rfl⟩ := hst
  rcases core_step hst with ⟨m, hl, hcore⟩ | ⟨hl, -⟩
  · simp only [record, hl]
    cases m with
    | requester p =>
      obtain ⟨hp, hbusy, -⟩ := Core.step_requester hcore
      simp [hidle p hp] at hbusy
    | _ => simp [Core.record, Core.entering]
  · simp only [record, hl]

/-- No transaction is in progress, and `es` has been entered. -/
def Rest (T : Tree) (es : List (Int × TransactionData)) (y : State × Hist) : Prop :=
  (∀ p ∈ T.mesh.cores, (y.1.core.node p).idle = true) ∧ y.2.core.entered = es

/-- In the end no transaction is in progress any more. -/
theorem eventually_rest (hfair : ρ.Fair works) (hends : Ends ρ) :
    ∃ es, ∀ᶠ i in atTop, Rest T es (ρ.state i) := by
  obtain ⟨N, hends⟩ := eventually_atTop.mp hends
  have hnext : ∀ p i, N ≤ i → ((ρ.state i).1.core.node p).idle = true →
      ((ρ.state (i + 1)).1.core.node p).idle = true := by
    intro p i hNi hidle
    cases hlabel : ρ.label i with
    | none =>
      rwa [ρ.still hlabel]
    | some l =>
      rcases core_step (taken_step hlabel) with ⟨m, hl, hcore⟩ | ⟨-, hcore⟩
      · refine Core.idle_step T.mesh hcore ?_ hidle
        rintro d rfl
        cases l with
        | core l =>
          obtain rfl := Option.some.inj hl
          exact hends i hNi p d hlabel
        | _ => exact absurd hl (by simp [Label.toCore])
      · rwa [hcore]
  have hidle : ∀ᶠ i in atTop, ∀ p ∈ T.mesh.cores, ((ρ.state i).1.core.node p).idle = true := by
    rw [eventually_forall_mem]
    intro p hp
    have hdrain : ∀ s a b, Core.sequentialRuns T.mesh s (.drain a b) :=
      fun _ _ _ => ⟨trivial, trivial, trivial⟩
    obtain ⟨i, hNi, hi⟩ := frequently_atTop.mp
      (Core.frequently_idle (admits_sequential T.mesh) hp (fair_coreView hdrain hfair)) N
    refine eventually_atTop.mpr ⟨i, fun j hij => ?_⟩
    induction j, hij using Nat.le_induction with
    | base => exact hi
    | succ j hij ih => exact hnext p j (Nat.le_trans hNi hij) ih
  obtain ⟨M, hidle⟩ := eventually_atTop.mp hidle
  refine ⟨(ρ.state M).2.core.entered, eventually_atTop.mpr ⟨M, fun i hi => ⟨hidle i hi, ?_⟩⟩⟩
  induction i, hi using Nat.le_induction with
  | base => rfl
  | succ i hi ih =>
    cases hlabel : ρ.label i with
    | none =>
      rwa [ρ.still hlabel]
    | some l =>
      have hmove := ρ.taken hlabel
      exact (entered_step hmove.2 (hidle i hi)).trans ih

/-! ## Layer one -/

/-- With no transaction in progress, what a node of layer one was set to, and what is under way to it, are
    all the snapshots. -/
theorem Rest.snapshots {es : List (Int × TransactionData)} {y : State × Hist} (h : Rest T es y)
    (hy : Reachable (historySystem T) quietRuns y) (ha : a ∈ T.mesh.cores)
    (hb : b ∈ T.mesh.layers a LAYER_ONE) :
    y.2.sets b ++ setsIn (y.1.core.chan a b) = Epidemica.snapshots es (es.length / 10) := by
  obtain ⟨hidle, rfl⟩ := h
  obtain ⟨m, hsent, hcount⟩ := sentInv ha hb hy
  have happlied : y.2.core.applied a = y.2.core.entered :=
    Core.applied_eq_entered (core_reachable hy) hidle ha
  have hpc : (y.1.core.node a).mutex.pc = .idle := by simpa [CoreNode.idle] using hidle a ha
  have hm : m = (y.2.core.applied a).length / 10 :=
    ((CoreNode.counted_of_not_inCS (by simp [hpc, Pc.isInCS])).mp hcount).2
  rw [hsent, hm, happlied]

/-- What a step does to the connection from `a` to a node `b` of layer one. -/
theorem below_step {s t : State} {l : Label} (hb : b ∉ T.mesh.cores) (hst : step T s l = some t) :
    ∃ new, t.core.chan a b =
      (if l = .handleOne a b then (s.core.chan a b).tail else s.core.chan a b) ++ new := by
  cases l with
  | core l =>
    obtain ⟨hl, core, hcore, rfl⟩ := step_core hst
    simp only [reduceCtorEq, if_false]
    cases l with
    | submit p d =>
      obtain ⟨-, -, rfl⟩ := Core.step_submit hcore
      exact ⟨[], by simp⟩
    | requester p =>
      obtain ⟨-, -, rfl⟩ := Core.step_requester hcore
      by_cases hap : a = p
      · exact ⟨_, by rw [Core.put_chan, if_pos hap]⟩
      · exact ⟨[], by simp [hap]⟩
    | handle p q i =>
      obtain ⟨hp, -, m, -, rfl⟩ := Core.step_handle hcore
      have hbp : b ≠ p := fun h => hb (h ▸ hp)
      by_cases hap : a = p
      · exact ⟨_, by rw [Core.put_chan, if_pos hap, Core.take_chan, if_neg fun h => hbp h.2]⟩
      · exact ⟨[], by simp [hap, hbp]⟩
    | drain p q => exact absurd rfl (hl p q)
  | handleOne p q =>
    obtain ⟨-, m, rest, -, -, rfl⟩ := step_handleOne hst
    by_cases hpq : a = p ∧ b = q
    · obtain ⟨rfl, rfl⟩ := hpq
      exact ⟨[], by simp [List.eraseIdx_zero]⟩
    · have hlabel : ¬ Label.handleOne p q = .handleOne a b := by
        intro h
        injection h with hp hq
        exact hpq ⟨hp.symm, hq.symm⟩
      exact ⟨[], by simp [hpq, hlabel]⟩
  | run q =>
    obtain ⟨-, rfl⟩ := step_run hst
    exact ⟨[], by simp⟩
  | handleTwo q r =>
    obtain ⟨m, rest, -, rfl⟩ := step_handleTwo hst
    exact ⟨[], by simp⟩

/-- The connection from `a` to a node `b` of layer one, as a queue. -/
def oneQueue {G : Guard Core.State Core.Label} (T : Tree) (hb : b ∉ T.mesh.cores) (a : Int) :
    Queue (historySystem T) (Guard.past (onCore G)) Msg :=
  Queue.ofStep (fun y => y.1.core.chan a b) (.handleOne a b)
    (by
      rintro ⟨s, h⟩ - hne
      obtain ⟨m, rest, hc⟩ := List.exists_cons_of_ne_nil hne
      refine ⟨trivial, ?_⟩
      have hc : s.core.chan a b = m :: rest := hc
      simp [historySystem, System.withHistory, system, step, Core.step, hc, hb])
    (by
      rintro ⟨s, h⟩ l ⟨t, k⟩ - - hst
      exact below_step hb (history_step hst).1)

/-- What a node has been set to only gets longer. -/
theorem sets_step {s t : State} {h k : Hist} {l : Label}
    (hst : (historySystem T).step (s, h) l = some (t, k)) : k.sets b = h.sets b ++ setting s b l := by
  obtain ⟨-, rfl⟩ := history_step hst
  rfl

/-- All snapshots arrive. -/
theorem eventually_sets (hfair : ρ.Fair works) {es : List (Int × TransactionData)}
    (hrest : ∀ᶠ i in atTop, Rest T es (ρ.state i)) (ha : a ∈ T.mesh.cores)
    (hb : b ∈ T.mesh.layers a LAYER_ONE) :
    ∀ᶠ i in atTop, (ρ.state i).2.sets b = snapshots es (es.length / 10) := by
  have hbc := T.mesh.below a ha b hb
  have hquiet : ∀ i, Reachable (historySystem T) quietRuns (ρ.state i) :=
    fun i => quiet_of_sequential (ρ.reachable i)
  obtain ⟨M, hM⟩ := eventually_atTop.mp hrest
  have hall : ∀ i, M ≤ i → (ρ.state i).2.sets b ++ setsIn ((ρ.state i).1.core.chan a b) =
      snapshots es (es.length / 10) := fun i hi => (hM i hi).snapshots (hquiet i) ha hb
  -- no further snapshot is sent
  have hsettle := (oneQueue T hbc a).settles (φ := fun m => m.set? = none) hfair trivial
    (eventually_atTop.mpr ⟨M, fun i hi l new hlabel hputs => ?_⟩)
  · filter_upwards [hsettle, hrest, eventually_ge_atTop M] with i hnone _ hi
    have hnil : setsIn ((ρ.state i).1.core.chan a b) = [] := by
      rw [setsIn, List.filterMap_eq_nil_iff]
      exact hnone
    have hall := hall i hi
    rwa [hnil, List.append_nil] at hall
  · have hmove := ρ.taken hlabel
    have hsets : (ρ.state (i + 1)).2.sets b = (ρ.state i).2.sets b ++ setting (ρ.state i).1 b l :=
      sets_step hmove.2
    have hnow := congrArg List.length (hall i hi)
    have hnext := congrArg List.length (hall (i + 1) (by omega))
    simp only [List.length_append, hsets] at hnow hnext
    have hnil : setsIn new = [] := by
      apply List.eq_nil_of_length_eq_zero
      rcases hputs with ⟨hl, hputs⟩ | ⟨hl, hputs⟩
      · have hputs : (ρ.state (i + 1)).1.core.chan a b = (ρ.state i).1.core.chan a b ++ new := hputs
        rw [hputs, setsIn_append, List.length_append] at hnext
        omega
      · have hl : l = .handleOne a b := hl
        have hputs : (ρ.state (i + 1)).1.core.chan a b = ((ρ.state i).1.core.chan a b).tail ++ new :=
          hputs
        rw [hputs, setsIn_append, List.length_append] at hnext
        -- the head, if it is a `SET`, is now a setting
        cases hc : (ρ.state i).1.core.chan a b with
        | nil =>
          simp only [hc, List.tail_nil, setsIn_nil, List.length_nil] at hnow hnext
          omega
        | cons m rest =>
          simp only [setting, hl, hc, if_true, List.head?_cons, Option.bind_some, List.tail_cons,
            setsIn_cons, List.length_append] at hnow hnext
          omega
    intro m hm
    exact List.filterMap_eq_nil_iff.mp hnil m hm

/-- So layer one holds the version of the last tenth write. -/
theorem eventually_one (hfair : ρ.Fair works) {es : List (Int × TransactionData)}
    (hrest : ∀ᶠ i in atTop, Rest T es (ρ.state i)) (ha : a ∈ T.mesh.cores)
    (hb : b ∈ T.mesh.layers a LAYER_ONE) :
    ∀ᶠ i in atTop, ((ρ.state i).1.one b).transaction.version = versionAt es (10 * (es.length / 10)) := by
  refine (eventually_sets hfair hrest ha hb).mono fun i hsets => ?_
  rw [one_version (ρ.reachable i), hsets, length_snapshots, snapshots_getD (Nat.le_refl _)]

/-! ## Layer two -/

/-- How many sends of another version than `v` the broadcast in progress has left, and one more. -/
def stale (v : Int32) (n : LayerOneNode) : ℕ :=
  match n.run with
  | .broadcast => 0
  | .send w todo => if w = v then 0 else todo.length + 1

/-- How many statements of `Run` it takes at most to the next send to `c`. -/
def turns (layerTwo : List Int) (c : Int) (n : LayerOneNode) : ℕ :=
  match n.run with
  | .broadcast => layerTwo.length + 1
  | .send _ todo => if c ∈ todo then todo.length else todo.length + layerTwo.length + 2

section
variable {v : Int32} {n : LayerOneNode} {layerTwo : List Int}

theorem runStep_stale (layerTwo : List Int) (hversion : n.transaction.version = v) :
    stale v (n.runStep layerTwo).1 ≤ stale v n - 1 := by
  obtain ⟨tr, run⟩ := n
  rcases run with _ | ⟨w, _ | ⟨x, todo⟩⟩ <;> simp only [LayerOneNode.runStep, stale]
  case broadcast => simp [show tr.version = v from hversion]
  case send.nil => simp
  case send.cons => split <;> simp

theorem runStep_turns (hc : c ∈ layerTwo) (hsend : select c (n.runStep layerTwo).2 = []) :
    turns layerTwo c (n.runStep layerTwo).1 < turns layerTwo c n := by
  obtain ⟨tr, run⟩ := n
  rcases run with _ | ⟨w, _ | ⟨x, todo⟩⟩ <;> simp only [LayerOneNode.runStep, turns] at hsend ⊢
  case broadcast => simp [hc]
  case send.nil => simp
  case send.cons =>
    have hxc : x ≠ c := by
      rintro rfl
      simp at hsend
    have hcons : c ∈ x :: todo ↔ c ∈ todo := by simp [hxc.symm]
    simp only [hcons, List.length_cons]
    split <;> omega

/-- What `Run` sends is what it holds. -/
theorem runStep_sent (hstale : stale v n = 0) {m : Msg} (hm : m ∈ select c (n.runStep layerTwo).2) :
    m = ⟨.set, v.toInt⟩ := by
  obtain ⟨tr, run⟩ := n
  rcases run with _ | ⟨w, _ | ⟨x, todo⟩⟩ <;> simp only [LayerOneNode.runStep, stale] at hm hstale
  case broadcast => simp at hm
  case send.nil => simp at hm
  case send.cons =>
    have hw : w = v := by
      by_contra hne
      simp [hne] at hstale
    by_cases hxc : x = c
    · simpa [hxc, hw] using hm
    · simp [hxc] at hm

end

/-- Only its own statements move the `Run` thread. -/
theorem run_step {s t : State} {l : Label} (hst : step T s l = some t) (hl : l ≠ .run b) :
    (t.one b).run = (s.one b).run := by
  cases l with
  | core l =>
    obtain ⟨-, core, -, rfl⟩ := step_core hst
    rfl
  | handleOne p q =>
    obtain ⟨-, m, rest, -, -, rfl⟩ := step_handleOne hst
    by_cases hbq : b = q
    · subst hbq
      simp [LayerOneNode.handleMsg]
    · simp [hbq]
  | run q =>
    obtain ⟨-, rfl⟩ := step_run hst
    have hbq : b ≠ q := by
      rintro rfl
      exact hl rfl
    simp [hbq]
  | handleTwo q r =>
    obtain ⟨m, rest, -, rfl⟩ := step_handleTwo hst
    rfl

/-- What a step does to a connection down to layer two. -/
theorem down_step {s t : State} {l : Label} (hst : step T s l = some t) :
    ∃ new, t.down b c = (if l = .handleTwo b c then (s.down b c).tail else s.down b c) ++ new ∧
      ∀ m ∈ new, l = .run b ∧ m ∈ select c ((s.one b).runStep (T.layerTwo b)).2 := by
  cases l with
  | core l =>
    obtain ⟨-, core, -, rfl⟩ := step_core hst
    exact ⟨[], by simp, by simp⟩
  | handleOne p q =>
    obtain ⟨-, m, rest, -, -, rfl⟩ := step_handleOne hst
    exact ⟨[], by simp, by simp⟩
  | run q =>
    obtain ⟨-, rfl⟩ := step_run hst
    by_cases hbq : b = q
    · subst hbq
      exact ⟨_, by simp [sendAll_apply], fun m hm => ⟨rfl, hm⟩⟩
    · exact ⟨[], by simp [sendAll_apply, hbq], by simp⟩
  | handleTwo q r =>
    obtain ⟨m, rest, -, rfl⟩ := step_handleTwo hst
    by_cases hbq : b = q ∧ c = r
    · obtain ⟨rfl, rfl⟩ := hbq
      exact ⟨[], by simp [receive_apply, List.eraseIdx_zero], by simp⟩
    · have hlabel : ¬ Label.handleTwo q r = .handleTwo b c := by
        intro h
        injection h with hq hr
        exact hbq ⟨hq.symm, hr.symm⟩
      exact ⟨[], by simp [receive_apply, hbq, hlabel], by simp⟩

/-- The connection from `b` down to `c`. -/
def twoQueue {G : Guard Core.State Core.Label} (T : Tree) (b c : Int) :
    Queue (historySystem T) (Guard.past (onCore G)) Msg :=
  Queue.ofStep (fun y => y.1.down b c) (.handleTwo b c)
    (by
      rintro ⟨s, h⟩ - hne
      obtain ⟨m, rest, hc⟩ := List.exists_cons_of_ne_nil hne
      refine ⟨trivial, ?_⟩
      have hc : s.down b c = m :: rest := hc
      simp [historySystem, System.withHistory, system, step, hc])
    (by
      rintro ⟨s, h⟩ l ⟨t, k⟩ - - hst
      exact (down_step (history_step hst).1).imp fun _ h => h.1)

theorem enabled_run {G : Guard Core.State Core.Label} (hb : b ∈ T.ones) (y : State × Hist) :
    Enabled (historySystem T) (Guard.past (onCore G)) y (.run b) := by
  obtain ⟨s, h⟩ := y
  exact ⟨trivial, by simp [historySystem, System.withHistory, system, step, hb]⟩

/-- In the end `Run` holds nothing else than the version of its node. -/
theorem eventually_fresh (hfair : ρ.Fair works) (hb : b ∈ T.ones) {v : Int32}
    (hversion : ∀ᶠ i in atTop, ((ρ.state i).1.one b).transaction.version = v) :
    ∀ᶠ i in atTop, stale v ((ρ.state i).1.one b) = 0 := by
  obtain ⟨M, hM⟩ := eventually_atTop.mp hversion
  have hnext : ∀ i, M ≤ i → stale v ((ρ.state (i + 1)).1.one b) ≤ stale v ((ρ.state i).1.one b) ∧
      (ρ.label i = some (.run b) →
        stale v ((ρ.state (i + 1)).1.one b) ≤ stale v ((ρ.state i).1.one b) - 1) := by
    intro i hi
    cases hlabel : ρ.label i with
    | none =>
      rw [ρ.still hlabel]
      exact ⟨Nat.le_refl _, fun h => absurd h (by simp)⟩
    | some l =>
      have hst := taken_step hlabel
      by_cases hl : l = .run b
      · subst hl
        obtain ⟨-, ht⟩ := step_run hst
        have hone : (ρ.state (i + 1)).1.one b = (((ρ.state i).1.one b).runStep (T.layerTwo b)).1 := by
          rw [ht]
          exact Function.update_self ..
        rw [hone]
        have hless := runStep_stale (T.layerTwo b) (hM i hi)
        exact ⟨by omega, fun _ => hless⟩
      · have hrun : (((ρ.state (i + 1)).1.one b).run) = ((ρ.state i).1.one b).run := run_step hst hl
        have hsame : stale v ((ρ.state (i + 1)).1.one b) = stale v ((ρ.state i).1.one b) := by
          unfold stale
          rw [hrun]
        exact ⟨Nat.le_of_eq hsame, fun h => absurd (Option.some.inj h) hl⟩
  obtain ⟨i, hi, hzero⟩ := hfair.descends (l := .run b) trivial (i := M)
    (fun j _ => enabled_run hb _) (Q := fun j => stale v ((ρ.state j).1.one b) = 0)
    (fun j => stale v ((ρ.state j).1.one b)) (fun j hj _ => (hnext j hj).1)
    (fun j hj hpos hlabel => by
      have hless := (hnext j hj).2 hlabel
      omega)
  refine eventually_atTop.mpr ⟨i, fun j hij => ?_⟩
  induction j, hij using Nat.le_induction with
  | base => exact hzero
  | succ j hij ih =>
    have hle := (hnext j (Nat.le_trans hi hij)).1
    omega

/-- In the end a node of layer two holds the version of the node above it. -/
theorem eventually_two (hfair : ρ.Fair works) (hb : b ∈ T.ones) (hc : c ∈ T.layerTwo b) {v : Int32}
    (hversion : ∀ᶠ i in atTop, ((ρ.state i).1.one b).transaction.version = v) :
    ∀ᶠ i in atTop, ((ρ.state i).1.two c).transaction.version = v := by
  have hfresh := eventually_fresh hfair hb hversion
  have hsettle := (twoQueue T b c).settles (φ := fun m => m = ⟨.set, v.toInt⟩) hfair trivial
    (hfresh.mono fun i hstale l new hlabel hputs m hm => by
      obtain ⟨new', ht, hnew⟩ := down_step (b := b) (c := c) (taken_step hlabel)
      exact runStep_sent hstale (hnew m (hputs.eq ht ▸ hm)).2)
  obtain ⟨M, hM⟩ := eventually_atTop.mp hsettle
  -- all that is handled from then on sets `v`
  have hhandle : ∀ i, M ≤ i → ∀ b', ρ.label i = some (.handleTwo b' c) →
      ((ρ.state (i + 1)).1.two c).transaction.version = v := by
    intro i hi b' hlabel
    obtain ⟨m, rest, hm, ht⟩ := step_handleTwo (taken_step hlabel)
    obtain rfl : b' = b := down_from (ρ.reachable i) hb hc (by rw [hm]; exact List.cons_ne_nil _ _)
    have hset : m = ⟨.set, v.toInt⟩ := hM i hi m (by
      show m ∈ (ρ.state i).1.down b' c
      rw [hm]
      exact List.mem_cons_self)
    rw [ht]
    simp only [Function.update_self, LayerTwoNode.handleMsg]
    rw [Transaction.handleMsg_version, hset, set?_set, Option.getD_some]
  have hstay : ∀ i, M ≤ i → ((ρ.state i).1.two c).transaction.version = v →
      ((ρ.state (i + 1)).1.two c).transaction.version = v := by
    intro i hi hv
    cases hlabel : ρ.label i with
    | none =>
      rwa [ρ.still hlabel]
    | some l =>
      have hst := taken_step hlabel
      cases l with
      | core l =>
        obtain ⟨-, core, -, ht⟩ := step_core hst
        rwa [ht]
      | handleOne p q =>
        obtain ⟨-, m, rest, -, -, ht⟩ := step_handleOne hst
        rwa [ht]
      | run q =>
        obtain ⟨-, ht⟩ := step_run hst
        rwa [ht]
      | handleTwo q r =>
        by_cases hcr : c = r
        · subst hcr
          exact hhandle i hi q hlabel
        · obtain ⟨m, rest, -, ht⟩ := step_handleTwo hst
          rw [ht]
          simpa [hcr] using hv
  -- and `Run` sends again
  obtain ⟨i, hMi, hlabel, hsent⟩ : ∃ i, M ≤ i ∧ ρ.label i = some (.run b) ∧
      select c (((ρ.state i).1.one b).runStep (T.layerTwo b)).2 ≠ [] := by
    have hnext : ∀ i l, ρ.label i = some l → l ≠ .run b →
        turns (T.layerTwo b) c ((ρ.state (i + 1)).1.one b) = turns (T.layerTwo b) c ((ρ.state i).1.one b) := by
      intro i l hlabel hl
      unfold turns
      rw [run_step (taken_step hlabel) hl]
    have hless : ∀ i, ρ.label i = some (.run b) →
        select c (((ρ.state i).1.one b).runStep (T.layerTwo b)).2 = [] →
        turns (T.layerTwo b) c ((ρ.state (i + 1)).1.one b) < turns (T.layerTwo b) c ((ρ.state i).1.one b) := by
      intro i hlabel hnone
      obtain ⟨-, ht⟩ := step_run (taken_step hlabel)
      have hone : (ρ.state (i + 1)).1.one b = (((ρ.state i).1.one b).runStep (T.layerTwo b)).1 := by
        rw [ht]
        exact Function.update_self ..
      rw [hone]
      exact runStep_turns hc hnone
    refine hfair.descends (l := .run b) trivial (i := M) (fun j _ => enabled_run hb _)
      (fun j => turns (T.layerTwo b) c ((ρ.state j).1.one b)) ?_ ?_
    · intro j _ hnot
      cases hlabel : ρ.label j with
      | none => rw [ρ.still hlabel]
      | some l =>
        by_cases hl : l = .run b
        · subst hl
          exact Nat.le_of_lt (hless j hlabel (by_contra fun h => hnot ⟨hlabel, h⟩))
        · exact Nat.le_of_eq (hnext j l hlabel hl)
    · intro j _ hnot hlabel
      exact hless j hlabel (by_contra fun h => hnot ⟨hlabel, h⟩)
  obtain ⟨-, ht⟩ := step_run (taken_step hlabel)
  obtain ⟨m, hm⟩ := List.exists_mem_of_ne_nil _ hsent
  have hm : m ∈ (twoQueue (G := Core.sequentialRuns T.mesh) T b c).content (ρ.state (i + 1)) := by
    show m ∈ (ρ.state (i + 1)).1.down b c
    rw [ht]
    simp [sendAll_apply, hm]
  obtain ⟨k, hik, hlabel, -⟩ := (twoQueue T b c).delivered_of_mem hfair trivial hm
  refine eventually_atTop.mpr ⟨k + 1, fun j hj => ?_⟩
  induction j, hj using Nat.le_induction with
  | base => exact hhandle k (by omega) b hlabel
  | succ j hj ih => exact hstay j (by omega) ih

/-! ## The result -/

/-- Eventual consistency. If waits test their predicate again and again and from some time on nothing but reads
    is submitted, then from some later time on no transaction is in progress, every core node holds the version
    after all writes, and every node of layer one and of layer two the version after the last tenth of them. -/
theorem eventual_consistency (T : Tree) (ρ : Runs T) (hfair : ρ.Fair works) (hends : Ends ρ) :
    ∃ es, ∀ᶠ i in atTop, (ρ.state i).2.core.entered = es ∧
      ∀ a ∈ T.mesh.cores, ((ρ.state i).1.core.node a).idle = true ∧
        ((ρ.state i).1.core.node a).transaction.version = versionAt es es.length ∧
        ∀ b ∈ T.mesh.layers a LAYER_ONE,
          ((ρ.state i).1.one b).transaction.version = versionAt es (10 * (es.length / 10)) ∧
          ∀ c ∈ T.layerTwo b,
            ((ρ.state i).1.two c).transaction.version = versionAt es (10 * (es.length / 10)) := by
  obtain ⟨es, hrest⟩ := eventually_rest hfair hends
  refine ⟨es, ?_⟩
  have hall : ∀ᶠ i in atTop, ∀ a ∈ T.mesh.cores, ∀ b ∈ T.mesh.layers a LAYER_ONE,
      ((ρ.state i).1.one b).transaction.version = versionAt es (10 * (es.length / 10)) ∧
        ∀ c ∈ T.layerTwo b,
          ((ρ.state i).1.two c).transaction.version = versionAt es (10 * (es.length / 10)) := by
    simp only [eventually_forall_mem, eventually_and]
    intro a ha b hb
    have hone := eventually_one hfair hrest ha hb
    exact ⟨hone, fun c hc => eventually_two hfair ((T.mem_ones b).mpr ⟨a, ha, hb⟩) hc hone⟩
  filter_upwards [hrest, hall] with i hrest hall
  obtain ⟨hidle, hes⟩ := hrest
  refine ⟨hes, fun a ha => ⟨hidle a ha, ?_, hall a ha⟩⟩
  have hquiet := core_reachable (quiet_of_sequential (ρ.reachable i))
  have hversion := ((Core.agreement hquiet).quiescent hidle).1 a ha
  rw [hversion, hes, versionAt_length]

/-- The labels that fairness is about, by number. -/
def workName : (Int ⊕ Int × Int × ℕ) ⊕ (Int × Int) ⊕ Int ⊕ Int × Int → Label
  | .inl x => .core (Core.workName x)
  | .inr (.inl (a, b)) => .handleOne a b
  | .inr (.inr (.inl b)) => .run b
  | .inr (.inr (.inr (b, c))) => .handleTwo b c

theorem works_workName (x) : works (workName x) := by
  rcases x with x | x | x | x
  · exact Core.works_workName x
  all_goals trivial

theorem exists_workName (l : Label) (hl : works l) : ∃ x, workName x = l := by
  cases l with
  | core l =>
    obtain ⟨x, rfl⟩ := Core.exists_workName l hl
    exact ⟨.inl x, rfl⟩
  | handleOne a b => exact ⟨.inr (.inl (a, b)), rfl⟩
  | run b => exact ⟨.inr (.inr (.inl b)), rfl⟩
  | handleTwo b c => exact ⟨.inr (.inr (.inr (b, c))), rfl⟩

/-- The ten writes of `A2` in the wiring of the controller, and then no more. -/
theorem eventual_consistency_tenWrites :
    ∃ (ρ : Runs Tree.controller) (n : ℕ), ρ.Fair works ∧ Ends ρ ∧
      (ρ.state n).2.core.entered.length = 10 ∧ ((ρ.state n).1.two 8894).transaction.version = 0 ∧
      ∃ es, ∀ᶠ i in atTop, (ρ.state i).2.core.entered = es ∧
        ((ρ.state i).1.two 8894).transaction.version = versionAt es (10 * (es.length / 10)) := by
  obtain ⟨y, -, hy, hP⟩ := Reachable.of_exec (historySystem Tree.controller)
    (Guard.past (onCore (Core.sequentialRuns Tree.controller.mesh))) (init, Hist.empty) tenWrites
    (fun y => y.2.core.entered.length == 10 && (y.1.two 8894).transaction.version == 0) ⟨rfl, rfl⟩
    (by decide +kernel)
  simp only [Bool.and_eq_true, beq_iff_eq] at hP
  obtain ⟨ρ, n, hfair, rfl, hworks⟩ := exists_fair workName works_workName exists_workName hy
  have hends : Ends ρ := by
    refine eventually_atTop.mpr ⟨n, fun i hi p d hlabel => ?_⟩
    exact absurd (hworks i hi _ hlabel) id
  refine ⟨ρ, n, hfair, hends, hP.1, hP.2, ?_⟩
  obtain ⟨es, hes⟩ := eventual_consistency Tree.controller ρ hfair hends
  refine ⟨es, hes.mono fun i h => ⟨h.1, ?_⟩⟩
  exact ((h.2 8890 (by decide)).2.2 8892 (by decide)).2 8894 (by decide)

end

end Propagation
end Epidemica
