import Epidemica.Lib.Transition
import Mathlib.Data.Countable.Defs
import Mathlib.Data.Nat.Pairing
import Mathlib.Order.Filter.AtTopBot.Basic

/-!
# `Lib.Fairness` — what must happen in the long run

A **path** is an infinite run that may stand still. Weak fairness says which labels cannot be put off for
ever: one that stays enabled is taken. From it come the rules by which a protocol module proves that
something happens in the end.

## Contents
- **Paths.** Every state of a path is reachable; what each step preserves stays.
- **Fairness.** `Fair.descends`: a label that is always enabled takes one closer to the goal each time.
- **Projections.** `Lockstep` maps paths to paths, and fair ones to fair ones.
- **Queues.** What stands in a queue that is served fairly is served (`Queue.delivered`), and what stood in
  it at some time is gone at some later time (`Queue.settles`).
- **Fair paths exist.** `exists_fair`: every finite run goes on as a fair path.
-/

namespace Transition

open Filter

variable {σ τ ℓ κ μ : Type*}

/-- The label may be taken. -/
def Enabled (M : System σ ℓ) (G : Guard σ ℓ) (s : σ) (l : ℓ) : Prop := G s l ∧ (M.step s l).isSome

/-- One step of a path; `none` stands still. -/
def Moves (M : System σ ℓ) (G : Guard σ ℓ) (s : σ) : Option ℓ → σ → Prop
  | some l, t => G s l ∧ M.step s l = some t
  | none, t => t = s

/-- An infinite run. -/
structure Path (M : System σ ℓ) (G : Guard σ ℓ) where
  state : ℕ → σ
  label : ℕ → Option ℓ
  init : M.init (state 0)
  moves : ∀ i, Moves M G (state i) (label i) (state (i + 1))

/-- What holds in the end of each of finitely many, holds of all of them. -/
theorem eventually_forall_mem {F : Filter σ} {l : List κ} {P : κ → σ → Prop} :
    (∀ᶠ s in F, ∀ x ∈ l, P x s) ↔ ∀ x ∈ l, ∀ᶠ s in F, P x s := by
  induction l with
  | nil => simp
  | cons x l ih => simp only [List.forall_mem_cons, eventually_and, ih]

namespace Path

variable {M : System σ ℓ} {G : Guard σ ℓ} (ρ : Path M G)

/-! ## Paths -/

theorem taken {i : ℕ} {l : ℓ} (h : ρ.label i = some l) :
    G (ρ.state i) l ∧ M.step (ρ.state i) l = some (ρ.state (i + 1)) := by
  have hmove := ρ.moves i
  rw [h] at hmove
  exact hmove

theorem still {i : ℕ} (h : ρ.label i = none) : ρ.state (i + 1) = ρ.state i := by
  have hmove := ρ.moves i
  rw [h] at hmove
  exact hmove

theorem reachable (i : ℕ) : Reachable M G (ρ.state i) := by
  induction i with
  | zero => exact Reachable.of_init ρ.init
  | succ i ih =>
    cases hl : ρ.label i with
    | some l =>
      have hmove := ρ.taken hl
      exact ih.step hmove.1 hmove.2
    | none =>
      exact (ρ.still hl) ▸ ih

/-- A step property of the reachable states, along a path. -/
theorem next {R : σ → σ → Prop} (hrefl : ∀ s, R s s)
    (hstep : ∀ s l t, Reachable M G s → G s l → M.step s l = some t → R s t) (i : ℕ) :
    R (ρ.state i) (ρ.state (i + 1)) := by
  cases hl : ρ.label i with
  | some l =>
    have hmove := ρ.taken hl
    exact hstep _ l _ (ρ.reachable i) hmove.1 hmove.2
  | none =>
    exact (ρ.still hl) ▸ hrefl _

/-- What every step preserves stays. -/
theorem stable {P : σ → Prop}
    (hstep : ∀ s l t, Reachable M G s → P s → G s l → M.step s l = some t → P t) {i j : ℕ}
    (hij : i ≤ j) (h : P (ρ.state i)) : P (ρ.state j) := by
  induction j, hij using Nat.le_induction with
  | base => exact h
  | succ j _ ih =>
    exact ρ.next (R := fun s t => P s → P t) (fun _ hs => hs)
      (fun s l t hr hg hst hs => hstep s l t hr hs hg hst) j ih

/-! ## Fairness -/

/-- Each label in `F` that stays enabled is taken. -/
def Fair (F : ℓ → Prop) : Prop :=
  ∀ l, F l → ∀ i, (∀ j, i ≤ j → Enabled M G (ρ.state j) l) → ∃ j, i ≤ j ∧ ρ.label j = some l

variable {ρ} {F : ℓ → Prop}

/-- What comes closer again and again gets there: from `P` one reaches `Q`, or `P` with a smaller
    measure. -/
theorem leads_of_measure {P Q : ℕ → Prop} (m : ℕ → ℕ)
    (h : ∀ i, P i → ∃ j, i ≤ j ∧ (Q j ∨ P j ∧ m j < m i)) {i : ℕ} (hi : P i) : ∃ j, i ≤ j ∧ Q j := by
  induction hn : m i using Nat.strong_induction_on generalizing i with
  | _ n ih =>
    obtain ⟨j, hij, hq | ⟨hp, hlt⟩⟩ := h i hi
    · exact ⟨j, hij, hq⟩
    · obtain ⟨k, hjk, hq⟩ := ih _ (hn ▸ hlt) hp rfl
      exact ⟨k, Nat.le_trans hij hjk, hq⟩

/-- As long as `Q` does not hold a measure never grows, and it gets smaller again and again. -/
theorem descends {Q T : ℕ → Prop} {i : ℕ} (hoften : ∀ j, i ≤ j → ∃ k, j ≤ k ∧ T k) (m : ℕ → ℕ)
    (hle : ∀ j, i ≤ j → ¬ Q j → m (j + 1) ≤ m j) (hlt : ∀ j, i ≤ j → ¬ Q j → T j → m (j + 1) < m j) :
    ∃ j, i ≤ j ∧ Q j := by
  by_contra hnot
  have hnever : ∀ j, i ≤ j → ¬ Q j := fun j hij hj => hnot ⟨j, hij, hj⟩
  have hdown : ∀ j k, i ≤ j → j ≤ k → m k ≤ m j := by
    intro j k hij hjk
    induction k, hjk using Nat.le_induction with
    | base => exact Nat.le_refl _
    | succ k hjk ih =>
      have hik := Nat.le_trans hij hjk
      exact Nat.le_trans (hle k hik (hnever k hik)) ih
  have hmore : ∀ j, i ≤ j → ∃ k, j ≤ k ∧ (False ∨ i ≤ k ∧ m k < m j) := by
    intro j hij
    obtain ⟨k, hjk, hk⟩ := hoften j hij
    have hik := Nat.le_trans hij hjk
    have hless := hlt k hik (hnever k hik) hk
    have hle := hdown j k hij hjk
    exact ⟨k + 1, by omega, Or.inr ⟨by omega, by omega⟩⟩
  obtain ⟨-, -, hfalse⟩ := leads_of_measure m hmore (Nat.le_refl i)
  exact hfalse

/-- As long as `Q` does not hold a measure never grows, and a label that is always enabled makes it
    smaller. -/
theorem Fair.descends (hfair : ρ.Fair F) {l : ℓ} (hl : F l) {i : ℕ}
    (hen : ∀ j, i ≤ j → Enabled M G (ρ.state j) l) {Q : ℕ → Prop} (m : ℕ → ℕ)
    (hle : ∀ j, i ≤ j → ¬ Q j → m (j + 1) ≤ m j)
    (hlt : ∀ j, i ≤ j → ¬ Q j → ρ.label j = some l → m (j + 1) < m j) : ∃ j, i ≤ j ∧ Q j :=
  Path.descends (fun j hij => hfair l hl j fun k hjk => hen k (Nat.le_trans hij hjk)) m hle hlt

end Path

/-! ## Projections -/

/-- `abs` maps a step of `M` to one step of `N`, or to standing still, and `label` says to which. -/
structure Lockstep (M : System σ ℓ) (G : Guard σ ℓ) (N : System τ κ) (K : Guard τ κ) where
  abs : σ → τ
  label : σ → ℓ → Option κ
  init : ∀ s, M.init s → N.init (abs s)
  step : ∀ s l t, Reachable M G s → G s l → M.step s l = some t → Moves N K (abs s) (label s l) (abs t)

/-- The image of a reachable state is reachable. -/
theorem Lockstep.reachable {M : System σ ℓ} {G : Guard σ ℓ} {N : System τ κ} {K : Guard τ κ}
    (L : Lockstep M G N K) {s : σ} (hs : Reachable M G s) : Reachable N K (L.abs s) := by
  refine Reachable.invariant (I := fun s => Reachable N K (L.abs s))
    (fun s hs => Reachable.of_init (L.init s hs)) ?_ hs
  intro s l t hr hs hg hst
  have hmove := L.step s l t hr hg hst
  cases hl : L.label s l with
  | some k =>
    rw [hl] at hmove
    exact hs.step hmove.1 hmove.2
  | none =>
    rw [hl] at hmove
    exact (show L.abs t = L.abs s from hmove) ▸ hs

/-- The image of a path. -/
def Path.image {M : System σ ℓ} {G : Guard σ ℓ} {N : System τ κ} {K : Guard τ κ} (ρ : Path M G)
    (L : Lockstep M G N K) : Path N K where
  state i := L.abs (ρ.state i)
  label i := (ρ.label i).bind (L.label (ρ.state i))
  init := L.init _ ρ.init
  moves i := by
    cases hl : ρ.label i with
    | some l =>
      have hmove := ρ.taken hl
      exact L.step _ l _ (ρ.reachable i) hmove.1 hmove.2
    | none =>
      exact congrArg L.abs (ρ.still hl)

/-- It is fair to the labels that are images of labels the path is fair to, if these are enabled with
    them. -/
theorem Path.Fair.image {M : System σ ℓ} {G : Guard σ ℓ} {N : System τ κ} {K : Guard τ κ}
    {ρ : Path M G} {F : ℓ → Prop} (hfair : ρ.Fair F) (L : Lockstep M G N K) {F' : κ → Prop}
    (lift : ∀ k, F' k → ∃ l, F l ∧ ∀ s, Reachable M G s →
      L.label s l = some k ∧ (Enabled N K (L.abs s) k → Enabled M G s l)) : (ρ.image L).Fair F' := by
  intro k hk i hen
  obtain ⟨l, hl, hlift⟩ := lift k hk
  obtain ⟨j, hij, hj⟩ := hfair l hl i fun j hij => (hlift _ (ρ.reachable j)).2 (hen j hij)
  refine ⟨j, hij, ?_⟩
  show (ρ.label j).bind (L.label (ρ.state j)) = some k
  rw [hj]
  exact (hlift _ (ρ.reachable j)).1

/-! ## Queues -/

/-- A queue inside the states, and the label that serves it. -/
structure Queue (M : System σ ℓ) (G : Guard σ ℓ) (μ : Type*) where
  content : σ → List μ
  serve : ℓ
  enabled : ∀ s, Reachable M G s → content s ≠ [] → Enabled M G s serve
  appends : ∀ s l t, Reachable M G s → G s l → M.step s l = some t → l ≠ serve →
    content s <+: content t
  serves : ∀ s t, Reachable M G s → G s serve → M.step s serve = some t →
    (content s).tail <+: content t

namespace Queue

/-- What stands in a list stands at the same place in every list it begins. -/
theorem getElem?_of_prefix {l r : List μ} (h : l <+: r) {k : ℕ} {m : μ} (hm : l[k]? = some m) :
    r[k]? = some m := by
  obtain ⟨new, rfl⟩ := h
  rw [List.getElem?_append_left (List.getElem?_eq_some_iff.mp hm).1]
  exact hm

variable {M : System σ ℓ} {G : Guard σ ℓ} {F : ℓ → Prop} {ρ : Path M G} {i : ℕ}

/-- Until the queue is served it only grows, and if it is not empty it is served. -/
theorem served (q : Queue M G μ) (hfair : ρ.Fair F) (hserve : F q.serve)
    (hne : q.content (ρ.state i) ≠ []) :
    ∃ j, i ≤ j ∧ ρ.label j = some q.serve ∧ q.content (ρ.state i) <+: q.content (ρ.state j) := by
  by_contra hnot
  -- if it were never served, it would hold for ever what it holds
  have hgrow : ∀ j, i ≤ j → q.content (ρ.state i) <+: q.content (ρ.state j) := by
    intro j hij
    induction j, hij using Nat.le_induction with
    | base => exact List.prefix_rfl
    | succ j hij ih =>
      cases hl : ρ.label j with
      | none =>
        exact (ρ.still hl) ▸ ih
      | some l =>
        have hmove := ρ.taken hl
        have hne : l ≠ q.serve := by
          rintro rfl
          exact hnot ⟨j, hij, hl, ih⟩
        exact ih.trans (q.appends _ l _ (ρ.reachable j) hmove.1 hmove.2 hne)
  obtain ⟨j, hij, hj⟩ := hfair q.serve hserve i fun j hij =>
    q.enabled _ (ρ.reachable j) fun hnil => hne (List.prefix_nil.mp (hnil ▸ hgrow j hij))
  exact hnot ⟨j, hij, hj, hgrow j hij⟩

/-- Everything in the queue gets to its head and is served. -/
theorem delivered (q : Queue M G μ) (hfair : ρ.Fair F) (hserve : F q.serve) {k : ℕ} {m : μ}
    (hm : (q.content (ρ.state i))[k]? = some m) :
    ∃ j, i ≤ j ∧ ρ.label j = some q.serve ∧ (q.content (ρ.state j)).head? = some m := by
  induction k generalizing i with
  | zero =>
    have hne : q.content (ρ.state i) ≠ [] := by
      intro hnil
      simp [hnil] at hm
    obtain ⟨j, hij, hj, hpre⟩ := q.served hfair hserve hne
    refine ⟨j, hij, hj, ?_⟩
    rw [List.head?_eq_getElem?]
    exact getElem?_of_prefix hpre hm
  | succ k ih =>
    have hne : q.content (ρ.state i) ≠ [] := by
      intro hnil
      simp [hnil] at hm
    obtain ⟨j, hij, hj, hpre⟩ := q.served hfair hserve hne
    have hmove := ρ.taken hj
    -- one place nearer to the head
    have hnext : (q.content (ρ.state (j + 1)))[k]? = some m := by
      apply getElem?_of_prefix (q.serves _ _ (ρ.reachable j) hmove.1 hmove.2)
      rw [List.getElem?_tail]
      exact getElem?_of_prefix hpre hm
    obtain ⟨j', hjj', hj', hhead⟩ := ih hnext
    exact ⟨j', by omega, hj', hhead⟩

theorem delivered_of_mem (q : Queue M G μ) (hfair : ρ.Fair F) (hserve : F q.serve) {m : μ}
    (hm : m ∈ q.content (ρ.state i)) :
    ∃ j, i ≤ j ∧ ρ.label j = some q.serve ∧ (q.content (ρ.state j)).head? = some m := by
  obtain ⟨k, hk⟩ := List.getElem?_of_mem hm
  exact q.delivered hfair hserve hk

/-- What a step puts into the queue. -/
def Puts (q : Queue M G μ) (s : σ) (l : ℓ) (t : σ) (new : List μ) : Prop :=
  l ≠ q.serve ∧ q.content t = q.content s ++ new ∨ l = q.serve ∧ q.content t = (q.content s).tail ++ new

/-- A queue, given by what each step does to it. -/
def ofStep [DecidableEq ℓ] (content : σ → List μ) (serve : ℓ)
    (enabled : ∀ s, Reachable M G s → content s ≠ [] → Enabled M G s serve)
    (step : ∀ s l t, Reachable M G s → G s l → M.step s l = some t →
      ∃ new, content t = (if l = serve then (content s).tail else content s) ++ new) : Queue M G μ where
  content := content
  serve := serve
  enabled := enabled
  appends s l t hs hg hst hl := by
    obtain ⟨new, ht⟩ := step s l t hs hg hst
    rw [if_neg hl] at ht
    exact ⟨new, ht.symm⟩
  serves s t hs hg hst := by
    obtain ⟨new, ht⟩ := step s serve t hs hg hst
    rw [if_pos rfl] at ht
    exact ⟨new, ht.symm⟩

theorem Puts.eq [DecidableEq ℓ] {q : Queue M G μ} {s t : σ} {l : ℓ} {new new' : List μ}
    (h : q.Puts s l t new)
    (h' : q.content t = (if l = q.serve then (q.content s).tail else q.content s) ++ new') :
    new = new' := by
  rcases h with ⟨hl, h⟩ | ⟨hl, h⟩
  · rw [if_neg hl, h] at h'
    exact List.append_cancel_left h'
  · rw [if_pos hl, h] at h'
    exact List.append_cancel_left h'

theorem exists_puts (q : Queue M G μ) {s t : σ} {l : ℓ} (hs : Reachable M G s) (hg : G s l)
    (hst : M.step s l = some t) : ∃ new, q.Puts s l t new := by
  by_cases hl : l = q.serve
  · subst hl
    obtain ⟨new, hnew⟩ := q.serves s t hs hg hst
    exact ⟨new, Or.inr ⟨rfl, hnew.symm⟩⟩
  · obtain ⟨new, hnew⟩ := q.appends s l t hs hg hst hl
    exact ⟨new, Or.inl ⟨hl, hnew.symm⟩⟩

/-- Behind the first `n` places stand only messages with `φ`. -/
def Old (q : Queue M G μ) (φ : μ → Prop) (n : ℕ) (s : σ) : Prop :=
  ∃ old new, q.content s = old ++ new ∧ old.length ≤ n ∧ ∀ m ∈ new, φ m

theorem Old.puts {q : Queue M G μ} {φ : μ → Prop} {n : ℕ} {s t : σ} {l : ℓ} {new : List μ}
    (h : q.Old φ n s) (hputs : q.Puts s l t new) (hφ : ∀ m ∈ new, φ m) :
    q.Old φ n t ∧ (l = q.serve → q.Old φ (n - 1) t) := by
  obtain ⟨old, late, hc, hlen, hlate⟩ := h
  have hall : ∀ m ∈ late ++ new, φ m := by
    intro m hm
    exact (List.mem_append.mp hm).elim (hlate m) (hφ m)
  rcases hputs with ⟨hl, ht⟩ | ⟨hl, ht⟩
  · refine ⟨⟨old, late ++ new, by rw [ht, hc, List.append_assoc], hlen, hall⟩, ?_⟩
    intro he
    exact absurd he hl
  · -- the head is gone
    cases old with
    | nil =>
      have htail : ∀ m ∈ late.tail ++ new, φ m := by
        intro m hm
        exact (List.mem_append.mp hm).elim (fun h => hlate m (List.mem_of_mem_tail h)) (hφ m)
      have ht : q.content t = [] ++ (late.tail ++ new) := by rw [ht, hc, List.nil_append, List.nil_append]
      exact ⟨⟨[], _, ht, Nat.zero_le _, htail⟩, fun _ => ⟨[], _, ht, Nat.zero_le _, htail⟩⟩
    | cons m old =>
      have ht : q.content t = old ++ (late ++ new) := by
        rw [ht, hc, List.cons_append, List.tail_cons, List.append_assoc]
      rw [List.length_cons] at hlen
      exact ⟨⟨old, _, ht, by omega, hall⟩, fun _ => ⟨old, _, ht, by omega, hall⟩⟩

/-- If only messages with `φ` are put into the queue from some time on, then in the end it holds no
    others. -/
theorem settles (q : Queue M G μ) (hfair : ρ.Fair F) (hserve : F q.serve) {φ : μ → Prop}
    (hnew : ∀ᶠ j in atTop, ∀ l new, ρ.label j = some l → q.Puts (ρ.state j) l (ρ.state (j + 1)) new →
      ∀ m ∈ new, φ m) : ∀ᶠ k in atTop, ∀ m ∈ q.content (ρ.state k), φ m := by
  obtain ⟨i, hnew⟩ := eventually_atTop.mp hnew
  -- what is old stays old, and less of it after each service
  have hnext : ∀ n j, i ≤ j → q.Old φ n (ρ.state j) → q.Old φ n (ρ.state (j + 1)) ∧
      (ρ.label j = some q.serve → q.Old φ (n - 1) (ρ.state (j + 1))) := by
    intro n j hij hold
    cases hl : ρ.label j with
    | none =>
      rw [ρ.still hl]
      exact ⟨hold, fun h => absurd h (by simp)⟩
    | some l =>
      have hmove := ρ.taken hl
      obtain ⟨new, hputs⟩ := q.exists_puts (ρ.reachable j) hmove.1 hmove.2
      obtain ⟨hsame, hless⟩ := hold.puts hputs (hnew j hij l new hl hputs)
      exact ⟨hsame, fun h => hless (Option.some.inj h)⟩
  have hstay : ∀ n j, i ≤ j → q.Old φ n (ρ.state j) → ∀ k, j ≤ k → q.Old φ n (ρ.state k) := by
    intro n j hij hold k hjk
    induction k, hjk using Nat.le_induction with
    | base => exact hold
    | succ k hjk ih => exact (hnext n k (Nat.le_trans hij hjk) ih).1
  have hend : ∀ n j, i ≤ j → q.Old φ n (ρ.state j) →
      ∀ᶠ k in atTop, ∀ m ∈ q.content (ρ.state k), φ m := by
    intro n
    induction n with
    | zero =>
      intro j hij hold
      refine eventually_atTop.mpr ⟨j, fun k hjk => ?_⟩
      obtain ⟨old, new, hc, hlen, hφ⟩ := hstay 0 j hij hold k hjk
      obtain rfl := List.eq_nil_of_length_eq_zero (Nat.le_zero.mp hlen)
      rw [hc, List.nil_append]
      exact hφ
    | succ n ih =>
      intro j hij hold
      by_cases hne : ∃ k, j ≤ k ∧ q.content (ρ.state k) ≠ []
      · obtain ⟨k, hjk, hne⟩ := hne
        obtain ⟨x, hkx, hx, -⟩ := q.served hfair hserve hne
        have hix : i ≤ x := by omega
        have hless := (hnext (n + 1) x hix (hstay (n + 1) j hij hold x (by omega))).2 hx
        exact ih (x + 1) (by omega) hless
      · -- the queue stays empty
        refine eventually_atTop.mpr ⟨j, fun k hjk => ?_⟩
        have hnil : q.content (ρ.state k) = [] := by
          by_contra h
          exact hne ⟨k, hjk, h⟩
        simp [hnil]
  exact hend (q.content (ρ.state i)).length i (Nat.le_refl i)
    ⟨q.content (ρ.state i), [], (List.append_nil _).symm, Nat.le_refl _, by simp⟩

end Queue

/-! ## Fair paths exist -/

section
variable {M : System σ ℓ} {G : Guard σ ℓ} {F : ℓ → Prop} {s t : σ} {l : ℓ}

/-- `M`, started in `s`. -/
def System.startedIn (M : System σ ℓ) (s : σ) : System σ ℓ := ⟨fun t => t = s, M.step⟩

/-- The states when the labels of a list without end come to their turn, and are taken if enabled. -/
noncomputable def scheduled (M : System σ ℓ) (G : Guard σ ℓ) (turn : ℕ → ℓ) (s : σ) : ℕ → σ
  | 0 => s
  | n + 1 =>
    open Classical in
    let t := scheduled M G turn s n
    if G t (turn n) then (M.step t (turn n)).getD t else t

open Classical in
theorem scheduled_moves (turn : ℕ → ℓ) (s : σ) (n : ℕ) :
    Moves M G (scheduled M G turn s n)
      (if Enabled M G (scheduled M G turn s n) (turn n) then some (turn n) else none)
      (scheduled M G turn s (n + 1)) := by
  generalize ht : scheduled M G turn s n = t
  have hnext : scheduled M G turn s (n + 1) =
      if G t (turn n) then (M.step t (turn n)).getD t else t := by rw [← ht]; rfl
  rw [hnext]
  by_cases hg : G t (turn n)
  · cases hst : M.step t (turn n) with
    | some u =>
      rw [if_pos ⟨hg, by simp [hst]⟩, if_pos hg]
      exact ⟨hg, hst⟩
    | none =>
      have hdisabled : ¬ Enabled M G t (turn n) := fun h => by simpa [hst] using h.2
      rw [if_neg hdisabled, if_pos hg]
      rfl
  · rw [if_neg fun h => hg h.1, if_neg hg]
    rfl

/-- If every label in `F` comes to its turn again and again, the path is fair. -/
theorem exists_fair_startedIn {turn : ℕ → ℓ} (hF : ∀ n, F (turn n))
    (hturn : ∀ l, F l → ∀ i, ∃ j, i ≤ j ∧ turn j = l) (s : σ) :
    ∃ ρ : Path (M.startedIn s) G, ρ.state 0 = s ∧ ρ.Fair F ∧ ∀ i l, ρ.label i = some l → F l := by
  classical
  let ρ : Path (M.startedIn s) G :=
    { state := scheduled M G turn s
      label := fun n => if Enabled M G (scheduled M G turn s n) (turn n) then some (turn n) else none
      init := rfl
      moves := scheduled_moves turn s }
  refine ⟨ρ, rfl, ?_, ?_⟩
  · intro l hl i hen
    obtain ⟨j, hij, rfl⟩ := hturn l hl i
    exact ⟨j, hij, if_pos (hen j hij)⟩
  · intro i l hlabel
    have hlabel : (if Enabled M G (scheduled M G turn s i) (turn i) then some (turn i) else none) = some l :=
      hlabel
    split at hlabel
    · exact Option.some.inj hlabel ▸ hF i
    · exact absurd hlabel (by simp)

/-- A step, and then a path. -/
def Path.cons (hg : G s l) (hst : M.step s l = some t) (ρ : Path (M.startedIn t) G) :
    Path (M.startedIn s) G where
  state | 0 => s | i + 1 => ρ.state i
  label | 0 => some l | i + 1 => ρ.label i
  init := rfl
  moves
    | 0 => ⟨hg, hst.trans (congrArg some ρ.init.symm)⟩
    | i + 1 => ρ.moves i

theorem Path.Fair.cons {ρ : Path (M.startedIn t) G} (hfair : ρ.Fair F) (hg : G s l)
    (hst : M.step s l = some t) : (ρ.cons hg hst).Fair F := by
  intro k hk i hen
  obtain ⟨j, hij, hj⟩ := hfair k hk i fun j hij => hen (j + 1) (Nat.le_succ_of_le hij)
  exact ⟨j + 1, Nat.le_succ_of_le hij, hj⟩

/-- A run, and then a path. -/
theorem Path.Fair.prolonged (hrun : Run M G s t) {ρ : Path (M.startedIn t) G} (hfair : ρ.Fair F) :
    ∃ (ρ' : Path (M.startedIn s) G) (n : ℕ), ρ'.Fair F ∧
      ∀ i, ρ'.state (n + i) = ρ.state i ∧ ρ'.label (n + i) = ρ.label i := by
  induction hrun with
  | refl => exact ⟨ρ, 0, hfair, fun i => by simp⟩
  | tail _ hg hst ih =>
    obtain ⟨ρ', n, hfair', htail⟩ := ih (hfair.cons hg hst)
    refine ⟨ρ', n + 1, hfair', fun i => ?_⟩
    rw [Nat.add_right_comm]
    exact htail (i + 1)

/-- Every finite run goes on as a fair path, and takes only labels in `F` from then on. Fairness can be
    asked for of labels that can be counted. -/
theorem exists_fair {ι : Type*} [Countable ι] [Nonempty ι] (name : ι → ℓ) (hF : ∀ x, F (name x))
    (hname : ∀ l, F l → ∃ x, name x = l) (hs : Reachable M G s) :
    ∃ (ρ : Path M G) (n : ℕ), ρ.Fair F ∧ ρ.state n = s ∧ ∀ i, n ≤ i → ∀ l, ρ.label i = some l → F l := by
  obtain ⟨f, hf⟩ := exists_surjective_nat ι
  have hturn : ∀ l, F l → ∀ i, ∃ j : ℕ, i ≤ j ∧ name (f (Nat.unpair j).1) = l := by
    intro l hl i
    obtain ⟨x, rfl⟩ := hname l hl
    obtain ⟨k, rfl⟩ := hf x
    exact ⟨Nat.pair k i, Nat.right_le_pair k i, by rw [Nat.unpair_pair]⟩
  obtain ⟨s₀, h₀, hrun⟩ := hs
  obtain ⟨ρ, hρ, hfair, hlabels⟩ :=
    exists_fair_startedIn (M := M) (G := G) (fun n => hF (f (Nat.unpair n).1)) hturn s
  obtain ⟨ρ', n, hfair', htail⟩ := hfair.prolonged hrun
  have hinit : M.init (ρ'.state 0) := by
    rw [show ρ'.state 0 = s₀ from ρ'.init]
    exact h₀
  refine ⟨⟨ρ'.state, ρ'.label, hinit, ρ'.moves⟩, n, hfair', (htail 0).1.trans hρ, ?_⟩
  intro i hni l hlabel
  obtain ⟨k, rfl⟩ := Nat.exists_eq_add_of_le hni
  exact hlabels k l ((htail k).2 ▸ hlabel)

end

end Transition
