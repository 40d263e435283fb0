import Mathlib.Logic.Function.Basic

/-!
# `Lib.Transition` — labelled transition systems with guarded runs

A generic engine: a system is an initial predicate and a partial executable step, and a **guard** says
which steps a run may take. Everything the protocol modules prove about "every run whose steps all meet
a condition" is an instance of the rules below.

## Contents
- **Runs.** `Run`/`Reachable`, weakening of the guard, transitivity.
- **Induction rules.** `Run.preserves` (a step property holds along a run) and `Reachable.invariant`
  (the step lemma may use that its source state is reachable).
- **Execution.** `exec` runs a list of labels; `Run.of_exec` turns a computed run into a `Run`.
- **Simulation.** `Simulation` maps every step of one system to a run of another.
- **History.** `withHistory` pairs a system with a record of its past that no step reads.
-/

namespace Transition

variable {σ τ ℓ κ η : Type*}

/-- A transition system: where it starts, and what each label does (`none`: the label is not enabled). -/
structure System (σ ℓ : Type*) where
  init : σ → Prop
  step : σ → ℓ → Option σ

/-- A condition on a step: the state it is taken in and its label. -/
abbrev Guard (σ ℓ : Type*) := σ → ℓ → Prop

/-- The guard that allows every step. -/
def anyStep : Guard σ ℓ := fun _ _ => True

instance (s : σ) (l : ℓ) : Decidable (anyStep s l) := isTrue trivial

/-- Finite runs all of whose steps meet the guard `G`. -/
inductive Run (M : System σ ℓ) (G : Guard σ ℓ) : σ → σ → Prop where
  | refl {s} : Run M G s s
  | tail {s t u l} : Run M G s t → G t l → M.step t l = some u → Run M G s u

/-- A state that some guarded run from an initial state ends in. -/
def Reachable (M : System σ ℓ) (G : Guard σ ℓ) (s : σ) : Prop := ∃ s₀, M.init s₀ ∧ Run M G s₀ s

variable {M : System σ ℓ} {G H : Guard σ ℓ}

/-! ## Runs -/

theorem Run.single {s t : σ} {l : ℓ} (hg : G s l) (h : M.step s l = some t) : Run M G s t :=
  Run.tail Run.refl hg h

theorem Run.trans {s t u : σ} (h₁ : Run M G s t) (h₂ : Run M G t u) : Run M G s u := by
  induction h₂ with
  | refl => exact h₁
  | tail _ hg hstep ih => exact Run.tail ih hg hstep

/-- A run under a guard is a run under any weaker one. -/
theorem Run.mono (hGH : ∀ s l, G s l → H s l) {s t : σ} (h : Run M G s t) : Run M H s t := by
  induction h with
  | refl => exact Run.refl
  | tail _ hg hstep ih => exact Run.tail ih (hGH _ _ hg) hstep

theorem Reachable.mono (hGH : ∀ s l, G s l → H s l) {s : σ} (h : Reachable M G s) :
    Reachable M H s := by
  obtain ⟨s₀, h₀, hrun⟩ := h
  exact ⟨s₀, h₀, hrun.mono hGH⟩

theorem Reachable.of_init {s : σ} (h : M.init s) : Reachable M G s := ⟨s, h, Run.refl⟩

theorem Reachable.step {s t : σ} {l : ℓ} (h : Reachable M G s) (hg : G s l)
    (hstep : M.step s l = some t) : Reachable M G t := by
  obtain ⟨s₀, h₀, hrun⟩ := h
  exact ⟨s₀, h₀, Run.tail hrun hg hstep⟩

theorem Reachable.run {s t : σ} (h : Reachable M G s) (hrun : Run M G s t) : Reachable M G t := by
  obtain ⟨s₀, h₀, hrun₀⟩ := h
  exact ⟨s₀, h₀, hrun₀.trans hrun⟩

/-! ## Induction rules -/

/-- What one guarded step preserves, a guarded run preserves. -/
theorem Run.preserves {I : σ → Prop}
    (hstep : ∀ s l t, I s → G s l → M.step s l = some t → I t) {s t : σ}
    (h : Run M G s t) (hs : I s) : I t := by
  induction h with
  | refl => exact hs
  | tail _ hg hst ih => exact hstep _ _ _ ih hg hst

/-- Invariant rule. The step lemma may use that the state before the step is reachable, so that
    invariants proved earlier are at hand. -/
theorem Reachable.invariant {I : σ → Prop} (hinit : ∀ s, M.init s → I s)
    (hstep : ∀ s l t, Reachable M G s → I s → G s l → M.step s l = some t → I t) {s : σ}
    (h : Reachable M G s) : I s := by
  obtain ⟨s₀, h₀, hrun⟩ := h
  induction hrun with
  | refl => exact hinit _ h₀
  | tail hr hg hst ih => exact hstep _ _ _ ⟨s₀, h₀, hr⟩ ih hg hst

/-- A guard that holds of every step taken from a reachable state may be added to the run. -/
theorem Reachable.strengthen
    (hall : ∀ s l t, Reachable M G s → G s l → M.step s l = some t → H s l) {s : σ}
    (h : Reachable M G s) : Reachable M (fun s l => G s l ∧ H s l) s := by
  obtain ⟨s₀, h₀, hrun⟩ := h
  refine ⟨s₀, h₀, ?_⟩
  induction hrun with
  | refl => exact Run.refl
  -- the run so far ends in a reachable state, which is all that `hall` asks for
  | tail hr hg hst ih => exact Run.tail ih ⟨hg, hall _ _ _ ⟨s₀, h₀, hr⟩ hg hst⟩ hst

/-! ## Execution -/

/-- Run a list of labels, stopping where a label is not enabled or breaks the guard. -/
def exec (M : System σ ℓ) (G : Guard σ ℓ) [∀ s l, Decidable (G s l)] : σ → List ℓ → Option σ
  | s, [] => some s
  | s, l :: ls =>
    if G s l then
      match M.step s l with
      | some t => exec M G t ls
      | none => none
    else none

theorem Run.of_exec [∀ s l, Decidable (G s l)] :
    ∀ {ls : List ℓ} {s t : σ}, exec M G s ls = some t → Run M G s t
  | [], s, t, h => by
    have hst : s = t := Option.some.inj h
    exact hst ▸ Run.refl
  | l :: ls, s, t, h => by
    simp only [exec] at h
    split at h
    · rename_i hg
      split at h
      · rename_i u hu
        exact (Run.single hg hu).trans (Run.of_exec h)
      · exact absurd h (by simp)
    · exact absurd h (by simp)

/-- The last state of a run that computes. -/
def execGet (M : System σ ℓ) (G : Guard σ ℓ) [∀ s l, Decidable (G s l)] (s : σ) (ls : List ℓ)
    (h : (exec M G s ls).isSome) : σ := (exec M G s ls).get h

theorem Run.execGet (M : System σ ℓ) (G : Guard σ ℓ) [∀ s l, Decidable (G s l)] (s : σ)
    (ls : List ℓ) (h : (exec M G s ls).isSome) : Run M G s (execGet M G s ls h) :=
  Run.of_exec (Option.some_get h).symm

/-- A computed run from an initial state ends in a reachable state, about which a test of its last
    state tells the truth. -/
theorem Reachable.of_exec (M : System σ ℓ) (G : Guard σ ℓ) [∀ s l, Decidable (G s l)] (s : σ)
    (ls : List ℓ) (P : σ → Bool) (h₀ : M.init s) (h : (exec M G s ls).map P = some true) :
    ∃ t, exec M G s ls = some t ∧ Reachable M G t ∧ P t = true := by
  obtain ⟨t, ht, hP⟩ := Option.map_eq_some_iff.mp h
  exact ⟨t, ht, ⟨s, h₀, Run.of_exec ht⟩, hP⟩

/-! ## Simulation -/

/-- `abs` maps every reachable guarded step of `M` to a guarded run of `N` (a step, or no step). -/
structure Simulation (M : System σ ℓ) (G : Guard σ ℓ) (N : System τ κ) (K : Guard τ κ) where
  abs : σ → τ
  init : ∀ s, M.init s → N.init (abs s)
  step : ∀ s l t, Reachable M G s → G s l → M.step s l = some t → Run N K (abs s) (abs t)

/-- The image of a reachable state is reachable. -/
theorem Simulation.reachable {N : System τ κ} {K : Guard τ κ} (S : Simulation M G N K) {s : σ}
    (h : Reachable M G s) : Reachable N K (S.abs s) := by
  obtain ⟨s₀, h₀, hrun⟩ := h
  refine ⟨S.abs s₀, S.init s₀ h₀, ?_⟩
  induction hrun with
  | refl => exact Run.refl
  | tail hr hg hst ih => exact ih.trans (S.step _ _ _ ⟨s₀, h₀, hr⟩ hg hst)

/-! ## History -/

/-- `M` with a history beside its state: `record` writes down each step, and no step reads it. -/
def System.withHistory (M : System σ ℓ) (h₀ : η) (record : σ → ℓ → η → η) : System (σ × η) ℓ where
  init x := M.init x.1 ∧ x.2 = h₀
  step x l := (M.step x.1 l).map fun t => (t, record x.1 l x.2)

/-- A guard on the state alone. -/
def Guard.past (G : Guard σ ℓ) : Guard (σ × η) ℓ := fun x l => G x.1 l

instance [∀ s l, Decidable (G s l)] : ∀ (x : σ × η) l, Decidable (Guard.past G x l) :=
  fun x l => inferInstanceAs (Decidable (G x.1 l))

theorem withHistory_step {h₀ : η} {record : σ → ℓ → η → η} {x y : σ × η} {l : ℓ} :
    (M.withHistory h₀ record).step x l = some y ↔
      M.step x.1 l = some y.1 ∧ y.2 = record x.1 l x.2 := by
  obtain ⟨t, k⟩ := y
  simp only [System.withHistory, Option.map_eq_some_iff, Prod.mk.injEq]
  constructor
  · rintro ⟨u, hu, rfl, rfl⟩
    exact ⟨hu, rfl⟩
  · rintro ⟨ht, rfl⟩
    exact ⟨t, ht, rfl, rfl⟩

/-- Forgetting the history leaves a run of the system. -/
theorem Reachable.forget {h₀ : η} {record : σ → ℓ → η → η} {x : σ × η}
    (h : Reachable (M.withHistory h₀ record) (Guard.past G) x) : Reachable M G x.1 := by
  refine Reachable.invariant (I := fun x => Reachable M G x.1) ?_ ?_ h
  · intro y hy
    exact Reachable.of_init hy.1
  · intro y l z _ hy hg hst
    exact hy.step hg (withHistory_step.mp hst).1

/-- Every reachable state has a history. -/
theorem Reachable.exists_history (h₀ : η) (record : σ → ℓ → η → η) {s : σ} (h : Reachable M G s) :
    ∃ k, Reachable (M.withHistory h₀ record) (Guard.past G) (s, k) := by
  refine Reachable.invariant
    (I := fun s => ∃ k, Reachable (M.withHistory h₀ record) (Guard.past G) (s, k)) ?_ ?_ h
  · intro s hs
    exact ⟨h₀, Reachable.of_init ⟨hs, rfl⟩⟩
  · rintro s l t _ ⟨k, hk⟩ hg hst
    exact ⟨record s l k, hk.step hg (withHistory_step.mpr ⟨hst, rfl⟩)⟩

end Transition
