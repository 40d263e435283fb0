import Mathlib.Algebra.Order.Ring.Int
import Mathlib.Data.List.Basic

/-!
# `Lib.Network` — point-to-point channels

A network is a queue of messages for every ordered pair of parties. Nothing is lost or duplicated: a
message leaves its queue only through `receive`. A FIFO network receives at position `0`; a network that
may reorder receives anywhere.
-/

namespace Network

variable {ι μ : Type*} [DecidableEq ι]

/-- `c p q` holds what `p` sent to `q` and `q` has not received, oldest first. -/
abbrev Channels (ι μ : Type*) := ι → ι → List μ

/-- `p` sends `m` to `q`. -/
def send (c : Channels ι μ) (p q : ι) (m : μ) : Channels ι μ :=
  Function.update c p (Function.update (c p) q (c p q ++ [m]))

/-- `p` sends a list of messages, each with its destination, in order. -/
def sendAll (c : Channels ι μ) (p : ι) : List (ι × μ) → Channels ι μ
  | [] => c
  | (q, m) :: outs => sendAll (send c p q m) p outs

/-- `p` takes the message at position `i` out of what `q` sent to it. -/
def receive (c : Channels ι μ) (q p : ι) (i : Nat) : Channels ι μ :=
  Function.update c q (Function.update (c q) p ((c q p).eraseIdx i))

/-- The entries of a list of pairs that stand under the key `q`: of a list of sends, what goes into the
    queue to `q`. -/
def select (q : ι) (outs : List (ι × μ)) : List μ :=
  outs.filterMap fun o => if o.1 = q then some o.2 else none

@[simp] theorem select_nil (q : ι) : select q ([] : List (ι × μ)) = [] := rfl

@[simp] theorem select_cons (q r : ι) (m : μ) (outs : List (ι × μ)) :
    select q ((r, m) :: outs) = (if r = q then [m] else []) ++ select q outs := by
  by_cases h : r = q <;> simp [select, h]

@[simp] theorem select_append (q : ι) (o₁ o₂ : List (ι × μ)) :
    select q (o₁ ++ o₂) = select q o₁ ++ select q o₂ := List.filterMap_append

theorem mem_select {q : ι} {m : μ} {outs : List (ι × μ)} : m ∈ select q outs ↔ (q, m) ∈ outs := by
  simp only [select, List.mem_filterMap, Option.ite_none_right_eq_some, Option.some.injEq]
  constructor
  · rintro ⟨o, ho, rfl, rfl⟩
    exact ho
  · intro h
    exact ⟨(q, m), h, rfl, rfl⟩

/-- A broadcast of `m` puts one copy into the queue of every destination, and nothing elsewhere. -/
theorem select_broadcast (q : ι) (m : μ) {ds : List ι} (hd : ds.Nodup) :
    select q (ds.map fun d => (d, m)) = if q ∈ ds then [m] else [] := by
  induction ds with
  | nil => rfl
  | cons d ds ih =>
    obtain ⟨hnot, hnd⟩ := List.nodup_cons.mp hd
    rw [List.map_cons, select_cons, ih hnd]
    -- `d` does not come again, so the rest holds nothing for it
    by_cases h : d = q
    · subst h
      simp [hnot]
    · simp [h, Ne.symm h]

/-- A list under one key. -/
theorem select_map (q r : ι) (l : List μ) :
    select q (l.map fun m => (r, m)) = if r = q then l else [] := by
  by_cases h : r = q <;> simp [select, h]

theorem count_select [DecidableEq μ] (q : ι) (m : μ) (l : List (ι × μ)) :
    (select q l).count m = l.count (q, m) := by
  induction l with
  | nil => rfl
  | cons o l ih =>
    obtain ⟨r, x⟩ := o
    rw [select_cons, List.count_append, ih, List.count_cons, Nat.add_comm]
    by_cases hr : r = q
    · subst hr
      by_cases hx : x = m <;> simp [hx]
    · simp [hr]

/-- Lists with the same entries under every key are permutations of each other. -/
theorem perm_of_select [DecidableEq μ] {l₁ l₂ : List (ι × μ)}
    (h : ∀ q, select q l₁ = select q l₂) : l₁.Perm l₂ := by
  rw [List.perm_iff_count]
  intro o
  rw [← count_select, ← count_select, h]

theorem send_apply (c : Channels ι μ) (p q : ι) (m : μ) (a b : ι) :
    send c p q m a b = if a = p ∧ b = q then c a b ++ [m] else c a b := by
  by_cases ha : a = p
  · subst ha
    by_cases hb : b = q
    · subst hb
      simp [send]
    · simp [send, hb]
  · simp [send, ha]

/-- Sends of `p` only append to queues of `p`. -/
theorem sendAll_apply (outs : List (ι × μ)) (c : Channels ι μ) (p a b : ι) :
    sendAll c p outs a b = if a = p then c a b ++ select b outs else c a b := by
  induction outs generalizing c with
  | nil => simp [sendAll]
  | cons o outs ih =>
    obtain ⟨q, m⟩ := o
    rw [sendAll, ih, send_apply, select_cons]
    by_cases ha : a = p
    · by_cases hq : b = q
      · simp [ha, hq]
      · simp [ha, hq, Ne.symm hq]
    · simp [ha]

theorem sendAll_append (c : Channels ι μ) (p : ι) (o₁ o₂ : List (ι × μ)) :
    sendAll c p (o₁ ++ o₂) = sendAll (sendAll c p o₁) p o₂ := by
  induction o₁ generalizing c with
  | nil => rfl
  | cons o o₁ ih =>
    obtain ⟨q, m⟩ := o
    exact ih (send c p q m)

theorem receive_apply (c : Channels ι μ) (q p : ι) (i : Nat) (a b : ι) :
    receive c q p i a b = if a = q ∧ b = p then (c a b).eraseIdx i else c a b := by
  by_cases ha : a = q
  · subst ha
    by_cases hb : b = p
    · subst hb
      simp [receive]
    · simp [receive, hb]
  · simp [receive, ha]

/-- The queue a message is taken from, around that message: nothing else is lost. -/
theorem exists_split {l : List μ} {i : Nat} {m : μ} (h : l[i]? = some m) :
    ∃ l₁ l₂, l = l₁ ++ m :: l₂ ∧ l.eraseIdx i = l₁ ++ l₂ := by
  obtain ⟨hi, rfl⟩ := List.getElem?_eq_some_iff.mp h
  refine ⟨l.take i, l.drop (i + 1), ?_, List.eraseIdx_eq_take_drop_succ l i⟩
  rw [List.getElem_cons_drop, List.take_append_drop]

omit [DecidableEq ι] in
/-- Changing a summand changes the sum by as much. -/
theorem sum_map_shift {f g : ι → Nat} {l : List ι} {x : ι} {c d : Nat} (hl : l.Nodup) (hx : x ∈ l)
    (hoff : ∀ y ∈ l, y ≠ x → f y = g y) (hat : f x + c = g x + d) :
    (l.map f).sum + c = (l.map g).sum + d := by
  induction l with
  | nil => exact absurd hx (by simp)
  | cons y l ih =>
    obtain ⟨hy, hnd⟩ := List.nodup_cons.mp hl
    simp only [List.map_cons, List.sum_cons]
    -- the summand that changes is the first, and the rest is the same, or it comes later
    rcases List.mem_cons.mp hx with rfl | hx
    · have hsame : l.map f = l.map g := by
        apply List.map_congr_left
        intro z hz
        exact hoff z (List.mem_cons_of_mem _ hz) (fun hzx => hy (hzx ▸ hz))
      rw [hsame]
      omega
    · have hne : y ≠ x := fun hyx => hy (hyx ▸ hx)
      have hhead := hoff y List.mem_cons_self hne
      have htail := ih hnd hx fun z hz => hoff z (List.mem_cons_of_mem _ hz)
      omega

end Network
