import Mathlib.Algebra.Order.Ring.Int
import Mathlib.Data.List.Basic

/-!
# `Lib.Incremental` — consumers of a buffer that is filled in pieces

A consumer takes what it can from the front of a buffer and waits when it needs more. If no turn of it looks
at what may still come behind the buffer (`step_feed`), it makes no difference how its input is cut into
pieces and how often it is called in between (`session_eq`).
-/

namespace Incremental

/-- A state with a buffer in it: `feed` appends to the buffer, `step` is one turn with what it gives out,
    and none when there is nothing to do until more comes. -/
structure Consumer (σ ι ω : Type*) where
  feed : σ → List ι → σ
  step : σ → Option (σ × List ω)
  size : σ → Nat
  feed_nil : ∀ s, feed s [] = s
  feed_append : ∀ s a b, feed (feed s a) b = feed s (a ++ b)
  size_step : ∀ {s t o}, step s = some (t, o) → size t < size s
  step_feed : ∀ {s t o} a, step s = some (t, o) → step (feed s a) = some (feed t a, o)

namespace Consumer

variable {σ ι ω : Type*} (C : Consumer σ ι ω)

/-- At most so many turns. -/
def turns : Nat → σ → σ × List ω
  | 0, s => (s, [])
  | k + 1, s =>
    match C.step s with
    | none => (s, [])
    | some (t, o) => ((turns k t).1, o ++ (turns k t).2)

/-- Turns until there is nothing to do. -/
def drain (s : σ) : σ × List ω := C.turns (C.size s) s

/-- Waiting for more input. -/
def Starved (s : σ) : Prop := C.step s = none

variable {C} {s t : σ} {o : List ω}

/-- The size of the state is enough fuel. -/
theorem turns_add (k : Nat) {n : Nat} (h : C.size s ≤ n) : C.turns (n + k) s = C.turns n s := by
  induction n generalizing s with
  | zero =>
    have hnone : C.step s = none := by
      by_contra hsome
      obtain ⟨⟨t, o⟩, hstep⟩ := Option.ne_none_iff_exists'.mp hsome
      have := C.size_step hstep
      omega
    cases k with
    | zero => rfl
    | succ k =>
      show C.turns (0 + k + 1) s = _
      simp [turns, hnone]
  | succ n ih =>
    rw [Nat.add_right_comm]
    show C.turns (n + k + 1) s = C.turns (n + 1) s
    unfold turns
    cases hstep : C.step s with
    | none => rfl
    | some r =>
      have := C.size_step hstep
      simp only [ih (s := r.1) (by omega)]

theorem drain_of_starved (h : C.Starved s) : C.drain s = (s, []) := by
  unfold Starved at h
  unfold drain
  cases C.size s with
  | zero => rfl
  | succ k => simp [turns, h]

theorem drain_of_step (h : C.step s = some (t, o)) :
    C.drain s = ((C.drain t).1, o ++ (C.drain t).2) := by
  have hlt := C.size_step h
  obtain ⟨k, hk⟩ := Nat.exists_eq_add_of_lt hlt
  have hdrain : C.drain s = C.turns (C.size t + k + 1) s := congrArg (C.turns · s) hk
  rw [hdrain, turns, h]
  simp only [turns_add k (Nat.le_refl (C.size t)), drain]

/-- Induction along the turns of `drain`. -/
theorem drain_induction {motive : σ → σ × List ω → Prop} (starved : ∀ s, C.Starved s → motive s (s, []))
    (step : ∀ s t o, C.step s = some (t, o) → motive t (C.drain t) →
      motive s ((C.drain t).1, o ++ (C.drain t).2)) (s : σ) : motive s (C.drain s) := by
  induction hn : C.size s using Nat.strong_induction_on generalizing s with
  | _ n ih =>
    cases hstep : C.step s with
    | none =>
      rw [drain_of_starved hstep]
      exact starved s hstep
    | some r =>
      obtain ⟨t, o⟩ := r
      rw [drain_of_step hstep]
      exact step s t o hstep (ih _ (hn ▸ C.size_step hstep) t rfl)

/-- What each turn preserves, all of them preserve. -/
theorem drain_preserves {I : σ → List ω → Prop}
    (hstep : ∀ s t out o, I s out → C.step s = some (t, o) → I t (out ++ o)) (out : List ω)
    (h : I s out) : I (C.drain s).1 (out ++ (C.drain s).2) := by
  refine drain_induction (C := C)
    (motive := fun s r => ∀ out, I s out → I r.1 (out ++ r.2)) ?_ ?_ s out h
  · intro s _ out h
    simpa using h
  · intro s t o hst ih out h
    show I (C.drain t).1 (out ++ (o ++ (C.drain t).2))
    rw [← List.append_assoc]
    exact ih _ (hstep s t out o h hst)

theorem starved_drain (s : σ) : C.Starved (C.drain s).1 :=
  drain_induction (C := C) (motive := fun _ r => C.Starved r.1) (fun _ h => h) (fun _ _ _ _ ih => ih) s

/-- Turns taken before the rest of the input arrives are turns that would have been taken anyway. -/
theorem drain_feed (s : σ) (a : List ι) :
    C.drain (C.feed s a) =
      ((C.drain (C.feed (C.drain s).1 a)).1, (C.drain s).2 ++ (C.drain (C.feed (C.drain s).1 a)).2) := by
  refine drain_induction (C := C) (motive := fun s r => C.drain (C.feed s a) =
    ((C.drain (C.feed r.1 a)).1, r.2 ++ (C.drain (C.feed r.1 a)).2)) ?_ ?_ s
  · intro s _
    rw [List.nil_append]
  · intro s t o hst ih
    rw [drain_of_step (C.step_feed a hst), ih]
    simp only [List.append_assoc]

/-- A view of the state that each turn respects, all of them respect. -/
theorem drain_view {f : σ → σ} (hstep : ∀ s, C.step (f s) = (C.step s).map fun r => (f r.1, r.2)) (s : σ) :
    C.drain (f s) = (f (C.drain s).1, (C.drain s).2) := by
  refine drain_induction (C := C) (motive := fun s r => C.drain (f s) = (f r.1, r.2)) ?_ ?_ s
  · intro s hs
    exact drain_of_starved (by rw [Starved, hstep, show C.step s = none from hs]; rfl)
  · intro s t o hst ih
    rw [drain_of_step (t := f t) (o := o) (by rw [hstep, hst]; rfl), ih]

/-! ## Interleavings -/

/-- `s` has given out `out`, and what it has before it is the rest of what the whole input gives. -/
def Follows (C : Consumer σ ι ω) (start : σ) (input : List ι) (s : σ) (out : List ω) : Prop :=
  C.drain (C.feed start input) = ((C.drain s).1, out ++ (C.drain s).2)

theorem Follows.start (s : σ) : C.Follows s [] s [] := by
  unfold Follows
  rw [C.feed_nil, List.nil_append]

theorem Follows.feed {start : σ} {input : List ι} {out : List ω} (h : C.Follows start input s out)
    (a : List ι) : C.Follows start (input ++ a) (C.feed s a) out := by
  unfold Follows at h ⊢
  rw [← C.feed_append, drain_feed, h, drain_feed s, List.append_assoc]

theorem Follows.drain {start : σ} {input : List ι} {out : List ω} (h : C.Follows start input s out) :
    C.Follows start input (C.drain s).1 (out ++ (C.drain s).2) := by
  unfold Follows at h ⊢
  rw [drain_of_starved (starved_drain s), List.append_nil]
  exact h

/-! ## Sessions -/

/-- Input in pieces, with a call behind each piece. -/
def session (C : Consumer σ ι ω) (s : σ) : List (List ι) → σ × List ω
  | [] => (s, [])
  | a :: as =>
    let r := C.drain (C.feed s a)
    ((session C r.1 as).1, r.2 ++ (session C r.1 as).2)

/-- The pieces do not matter, but only what they are together. -/
theorem session_eq (h : C.Starved s) (as : List (List ι)) :
    C.session s as = C.drain (C.feed s as.flatten) := by
  induction as generalizing s with
  | nil =>
    rw [List.flatten_nil, C.feed_nil, drain_of_starved h]
    rfl
  | cons a as ih =>
    rw [session, ih (starved_drain _), List.flatten_cons, ← C.feed_append, drain_feed (C.feed s a)]

end Consumer
end Incremental
