import Mathlib.Algebra.Order.Ring.Int
import Mathlib.Data.List.TakeWhile

/-!
# `Lib.Cut` — lists cut at the first occurrence of an element

A hand-written parser looks for delimiters and works on what lies before, behind and between them. The
delimiters are found independently of one another, so the second may stand in front of the first: `between`
says what the slice from one to the other is then.
-/

namespace Cut

variable {α : Type*} [DecidableEq α]

/-- What stands in front of the first `c`. -/
def before (c : α) (s : List α) : List α := s.takeWhile (· ≠ c)

/-- What stands behind the first `c`. -/
def behind (c : α) (s : List α) : List α := (s.dropWhile (· ≠ c)).tail

/-- From behind the first `a` up to and with the first `b`, or to the end if `b` comes first. -/
def between (a b : α) (s : List α) : List α :=
  if b ∈ before a s then behind a s else before b (behind a s) ++ [b]

section
variable {a b c : α} {s t : List α}

theorem notMem_before : c ∉ before c s := by
  intro h
  have := List.mem_takeWhile_imp h
  simp at this

theorem before_append (h : c ∉ s) : before c (s ++ c :: t) = s := by
  have hs : ∀ x ∈ s, decide (x ≠ c) = true := by
    intro x hx
    exact decide_eq_true (fun he => h (he ▸ hx))
  unfold before
  rw [List.takeWhile_append_of_pos hs, List.takeWhile_cons_of_neg (by simp), List.append_nil]

theorem behind_append (h : c ∉ s) : behind c (s ++ c :: t) = t := by
  have hs : ∀ x ∈ s, decide (x ≠ c) = true := by
    intro x hx
    exact decide_eq_true (fun he => h (he ▸ hx))
  unfold behind
  rw [List.dropWhile_append_of_pos hs, List.dropWhile_cons_of_neg (by simp), List.tail_cons]

/-- The two parts and the delimiter make up the list. -/
theorem before_append_behind (h : c ∈ s) : before c s ++ c :: behind c s = s := by
  induction s with
  | nil => exact absurd h (by simp)
  | cons x s ih =>
    by_cases hx : x = c
    · subst hx
      simp [before, behind]
    · have ih := ih ((List.mem_cons.mp h).resolve_left (Ne.symm hx))
      unfold before behind at ih ⊢
      rw [List.takeWhile_cons_of_pos (by simpa using hx), List.dropWhile_cons_of_pos (by simpa using hx),
        List.cons_append, ih]

theorem drop_length_before (h : c ∈ s) : s.drop (before c s).length = c :: behind c s := by
  calc s.drop (before c s).length
      = (before c s ++ c :: behind c s).drop (before c s).length := by rw [before_append_behind h]
    _ = c :: behind c s := List.drop_left

theorem drop_before (h : c ∈ s) : s.drop ((before c s).length + 1) = behind c s := by
  rw [← List.drop_drop, drop_length_before h, List.drop_one, List.tail_cons]

/-- A delimiter in front of another one cuts the list where it cuts the part in front. -/
theorem before_of_mem_before (ha : a ∈ s) (hb : b ∈ before a s) : before b s = before b (before a s) := by
  conv_lhs =>
    rw [← before_append_behind ha, ← before_append_behind hb, List.append_assoc, List.cons_append]
  exact before_append notMem_before

/-- A delimiter behind another one cuts the list where it cuts the part behind. -/
theorem before_of_notMem_before (ha : a ∈ s) (hb : b ∈ s) (hne : b ≠ a) (h : b ∉ before a s) :
    b ∈ behind a s ∧ before b s = before a s ++ a :: before b (behind a s) := by
  have hmem : b ∈ behind a s := by
    rw [← before_append_behind ha] at hb
    exact (List.mem_cons.mp ((List.mem_append.mp hb).resolve_left h)).resolve_left hne
  refine ⟨hmem, ?_⟩
  conv_lhs =>
    rw [← before_append_behind ha, ← before_append_behind hmem, ← List.cons_append, ← List.append_assoc]
  apply before_append
  intro hin
  rcases List.mem_append.mp hin with hfront | hback
  · exact h hfront
  · exact (List.mem_cons.mp hback).elim hne notMem_before

/-- The slice between two delimiters, in terms of their positions. -/
theorem take_drop_before (ha : a ∈ s) (hb : b ∈ s) (hne : b ≠ a) (h : b ∉ before a s) :
    (before a s).length ≤ (before b s).length ∧
      (behind a s).take ((before b s).length - (before a s).length) = between a b s := by
  obtain ⟨hmem, heq⟩ := before_of_notMem_before ha hb hne h
  have hlen : (before b s).length = (before a s).length + ((before b (behind a s)).length + 1) := by
    rw [heq, List.length_append, List.length_cons]
  refine ⟨by omega, ?_⟩
  unfold between
  rw [if_neg h, hlen, Nat.add_sub_cancel_left]
  calc (behind a s).take ((before b (behind a s)).length + 1)
      = (before b (behind a s) ++ b :: behind b (behind a s)).take ((before b (behind a s)).length + 1) := by
        rw [before_append_behind hmem]
    _ = before b (behind a s) ++ [b] := by
        rw [List.take_append, List.take_of_length_le (Nat.le_succ _), Nat.add_sub_cancel_left,
          List.take_succ_cons, List.take_zero]

theorem length_before_lt (ha : a ∈ s) (hb : b ∈ before a s) :
    (before b s).length < (before a s).length := by
  rw [before_of_mem_before ha hb]
  conv_rhs => rw [← before_append_behind hb, List.length_append, List.length_cons]
  omega

/-- Between two delimiters that stand in order. -/
theorem between_append {u v w : List α} (hau : a ∉ u) (hbu : b ∉ u) (hbv : b ∉ v) :
    between a b (u ++ a :: (v ++ b :: w)) = v ++ [b] := by
  unfold between
  rw [before_append hau, if_neg hbu, behind_append hau, before_append hbv]

end

end Cut
