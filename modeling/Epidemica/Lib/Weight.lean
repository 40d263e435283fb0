import Epidemica.Lib.Network
import Mathlib.Data.List.Perm.Basic
import Mathlib.Data.List.Nodup
import Mathlib.Algebra.BigOperators.Group.List.Basic

/-!
# `Lib.Weight` — weighing lists of messages

A weight gives every message a natural number, and `weigh` adds it up along a list: with the weight `1` for
some messages and `0` for the others it counts them. An accounting invariant says that the weight of what
has happened, of what is under way and of what is still to come add up to a constant; these are the rules
for the moves of a message between the three, and for adding up over the keys of a list of pairs.
-/

namespace Network

variable {ι μ : Type*}

/-- The sum of a weight along a list. -/
def weigh (g : μ → Nat) (l : List μ) : Nat := (l.map g).sum

section
variable {g h : μ → Nat} {l l₁ l₂ : List μ} {m : μ}

@[simp] theorem weigh_nil : weigh g [] = 0 := rfl

@[simp] theorem weigh_cons : weigh g (m :: l) = g m + weigh g l := by
  rw [weigh, List.map_cons, List.sum_cons]
  rfl

@[simp] theorem weigh_append : weigh g (l₁ ++ l₂) = weigh g l₁ + weigh g l₂ := by
  rw [weigh, List.map_append, List.sum_append]
  rfl

theorem weigh_eq_zero (hl : ∀ m ∈ l, g m = 0) : weigh g l = 0 := by
  induction l with
  | nil => rfl
  | cons m l ih =>
    rw [weigh_cons, hl m List.mem_cons_self, ih fun x hx => hl x (List.mem_cons_of_mem _ hx)]

theorem weigh_congr (hl : ∀ m ∈ l, g m = h m) : weigh g l = weigh h l :=
  congrArg List.sum (List.map_congr_left hl)

theorem weigh_add : weigh (fun m => g m + h m) l = weigh g l + weigh h l := by
  induction l with
  | nil => rfl
  | cons m l ih =>
    simp only [weigh_cons, ih]
    omega

theorem weigh_le (hl : ∀ m ∈ l, g m ≤ h m) : weigh g l ≤ weigh h l := by
  induction l with
  | nil => exact Nat.le_refl _
  | cons m l ih =>
    rw [weigh_cons, weigh_cons]
    exact Nat.add_le_add (hl m List.mem_cons_self) (ih fun x hx => hl x (List.mem_cons_of_mem _ hx))

theorem weigh_const (c : Nat) : weigh (fun _ => c) l = l.length * c := by
  simp [weigh]

theorem weigh_map {ν : Type*} (k : ν → μ) (l : List ν) : weigh g (l.map k) = weigh (fun x => g (k x)) l := by
  rw [weigh, List.map_map]
  rfl

theorem weigh_flatMap {ν : Type*} (k : ν → List μ) (l : List ν) :
    weigh g (l.flatMap k) = weigh (fun x => weigh g (k x)) l := by
  induction l with
  | nil => rfl
  | cons x l ih => rw [List.flatMap_cons, weigh_append, weigh_cons, ih]

theorem weigh_mul (c : Nat) : weigh (fun m => c * g m) l = c * weigh g l := by
  induction l with
  | nil => rfl
  | cons m l ih => rw [weigh_cons, weigh_cons, ih, Nat.mul_add]

/-- A weight of `0` and `1` counts. -/
theorem weigh_ite (P : μ → Prop) [DecidablePred P] :
    weigh (fun m => if P m then 1 else 0) l = l.countP P := by
  induction l with
  | nil => rfl
  | cons m l ih => rw [weigh_cons, ih, List.countP_cons, Nat.add_comm]; simp

/-- A message taken out takes its weight with it. -/
theorem weigh_eraseIdx {i : Nat} (hm : l[i]? = some m) : weigh g (l.eraseIdx i) + g m = weigh g l := by
  obtain ⟨l₁, l₂, hl, he⟩ := exists_split hm
  rw [he, hl]
  simp only [weigh_append, weigh_cons]
  omega

theorem weigh_perm (hp : l₁.Perm l₂) : weigh g l₁ = weigh g l₂ := (hp.map g).sum_eq

end

/-- The weight of a list of pairs is added up over their keys. -/
theorem weigh_keys [DecidableEq ι] (g : μ → Nat) {keys : List ι} (hnd : keys.Nodup)
    {l : List (ι × μ)} (hl : ∀ o ∈ l, o.1 ∈ keys) :
    weigh (fun o => g o.2) l = weigh (fun x => weigh g (select x l)) keys := by
  induction l with
  | nil => exact (weigh_eq_zero fun _ _ => rfl).symm
  | cons o l ih =>
    obtain ⟨y, m⟩ := o
    have hy : y ∈ keys := hl _ List.mem_cons_self
    have hrest := ih fun o ho => hl o (List.mem_cons_of_mem _ ho)
    -- the new pair counts under its own key and under no other
    have hshift : weigh (fun x => weigh g (select x ((y, m) :: l))) keys + 0 =
        weigh (fun x => weigh g (select x l)) keys + g m := by
      refine sum_map_shift hnd hy ?_ ?_
      · intro x _ hxy
        rw [select_cons, if_neg (Ne.symm hxy)]
        rfl
      · rw [select_cons, if_pos rfl, weigh_append]
        simp only [weigh_cons, weigh_nil]
        omega
    rw [weigh_cons, hrest]
    simp only
    omega

end Network
