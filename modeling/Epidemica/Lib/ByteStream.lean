import Mathlib.Algebra.Order.Ring.Int
import Mathlib.Data.List.Basic

/-!
# `Lib.ByteStream` — records of a fixed size on a stream that arrives in pieces

A stream delivers its elements in order and without loss, but a read returns as many as have arrived:
any number from `1` to the size of the buffer. A reader that takes one read for one record gets the
records that were written if and only if every read fills its buffer (`readAll_eq_iff`).
-/

namespace ByteStream

variable {α β : Type*}

/-- One read: how many elements it returns, and what the buffer holds before it. -/
structure Read (β : Type*) where
  count : Nat
  stale : Nat → β

/-- The buffer after the read; behind the elements returned it holds what it held. -/
def Read.buffer (r : Read β) (stream : List β) (i : Nat) : β :=
  if i < r.count then stream.getD i (r.stale i) else r.stale i

/-- Reads into a buffer of the given size until the stream is at its end. -/
def Cuts (size : Nat) : List (Read β) → List β → Prop
  | [], stream => stream = []
  | r :: rs, stream =>
    0 < r.count ∧ r.count ≤ size ∧ r.count ≤ stream.length ∧ Cuts size rs (stream.drop r.count)

instance instDecidableCuts [DecidableEq β] (size : Nat) :
    ∀ (rs : List (Read β)) (stream : List β), Decidable (Cuts size rs stream)
  | [], stream => inferInstanceAs (Decidable (stream = []))
  | r :: rs, stream =>
    have := instDecidableCuts size rs (stream.drop r.count)
    inferInstanceAs (Decidable (_ ∧ _ ∧ _ ∧ _))

/-- A reader that decodes one record from each read. -/
def readAll (decode : (Nat → β) → α) : List (Read β) → List β → List α
  | [], _ => []
  | r :: rs, stream => decode (r.buffer stream) :: readAll decode rs (stream.drop r.count)

@[simp] theorem length_readAll (decode : (Nat → β) → α) (rs : List (Read β)) (stream : List β) :
    (readAll decode rs stream).length = rs.length := by
  induction rs generalizing stream with
  | nil => rfl
  | cons r rs ih => simp [readAll, ih]

/-- A full read finds its elements at the front of the stream. -/
theorem buffer_append (r : Read β) {front rest : List β} (h : r.count = front.length) {i : Nat}
    (hi : i < front.length) : r.buffer (front ++ rest) i = front[i] := by
  unfold Read.buffer
  rw [if_pos (by omega), List.getD_eq_getElem?_getD, List.getElem?_append_left hi,
    List.getElem?_eq_getElem hi, Option.getD_some]

section
variable {size : Nat} {rs : List (Read β)} {stream : List β}

/-- The reads take all of the stream, and nothing else. -/
theorem Cuts.sum (h : Cuts size rs stream) : (rs.map Read.count).sum = stream.length := by
  induction rs generalizing stream with
  | nil =>
    obtain rfl : stream = [] := h
    rfl
  | cons r rs ih =>
    obtain ⟨-, -, hle, hrest⟩ := h
    rw [List.map_cons, List.sum_cons, ih hrest, List.length_drop]
    omega

theorem Cuts.le (h : Cuts size rs stream) : ∀ r ∈ rs, r.count ≤ size := by
  induction rs generalizing stream with
  | nil => simp
  | cons r rs ih =>
    obtain ⟨-, hle, -, hrest⟩ := h
    intro x hx
    rcases List.mem_cons.mp hx with rfl | hx
    · exact hle
    · exact ih hrest x hx

/-- Reads of at most `size` elements take at most `size` times their number, and less unless all are full. -/
theorem sum_counts (h : ∀ r ∈ rs, r.count ≤ size) :
    (rs.map Read.count).sum ≤ size * rs.length ∧
      ((rs.map Read.count).sum = size * rs.length ↔ ∀ r ∈ rs, r.count = size) := by
  induction rs with
  | nil => simp
  | cons r rs ih =>
    obtain ⟨hle, hiff⟩ := ih fun x hx => h x (List.mem_cons_of_mem _ hx)
    have hr : r.count ≤ size := h r List.mem_cons_self
    have hmul : size * (rs.length + 1) = size * rs.length + size := Nat.mul_succ _ _
    simp only [List.map_cons, List.sum_cons, List.length_cons, List.forall_mem_cons, hmul]
    -- a sum that reaches its bound leaves no summand below `size`
    refine ⟨by omega, ?_, ?_⟩
    · intro heq
      exact ⟨by omega, hiff.mp (by omega)⟩
    · intro hall
      have hsum := hiff.mpr hall.2
      omega

/-- A stream of `k` records is read in `k` reads if and only if all of them are full. -/
theorem Cuts.length_eq_iff {k : Nat} (hsize : 0 < size) (h : Cuts size rs stream)
    (hk : stream.length = size * k) : rs.length = k ↔ ∀ r ∈ rs, r.count = size := by
  obtain ⟨-, hiff⟩ := sum_counts h.le
  rw [← hiff, h.sum, hk, Nat.mul_right_inj (by omega)]
  exact eq_comm

end

section
variable {size : Nat} {encode : α → List β} {decode : (Nat → β) → α} {xs : List α}

theorem length_flatMap (hlen : ∀ x, (encode x).length = size) (xs : List α) :
    (xs.flatMap encode).length = size * xs.length := by
  induction xs with
  | nil => rfl
  | cons x xs ih =>
    rw [List.flatMap_cons, List.length_append, hlen, ih, List.length_cons, Nat.mul_succ, Nat.add_comm]

/-- Full reads give back what was written. -/
theorem readAll_full (hsize : 0 < size) (hlen : ∀ x, (encode x).length = size)
    (hdecode : ∀ x buffer, (∀ i (hi : i < (encode x).length), buffer i = (encode x)[i]) →
      decode buffer = x) {rs : List (Read β)} (hcuts : Cuts size rs (xs.flatMap encode))
    (hfull : ∀ r ∈ rs, r.count = size) : readAll decode rs (xs.flatMap encode) = xs := by
  -- one record at a time: a full read takes exactly the first one off the stream
  induction xs generalizing rs with
  | nil =>
    cases rs with
    | nil => rfl
    | cons r rs =>
      obtain ⟨hpos, -, hle, -⟩ := hcuts
      exact absurd hle (by simpa using Nat.pos_iff_ne_zero.mp hpos)
  | cons x xs ih =>
    cases rs with
    | nil =>
      have hnil : (x :: xs).flatMap encode = [] := hcuts
      have hzero := congrArg List.length hnil
      rw [length_flatMap hlen, List.length_cons, List.length_nil, Nat.mul_succ] at hzero
      omega
    | cons r rs =>
      have hr : r.count = (encode x).length := by rw [hlen, hfull r List.mem_cons_self]
      have hdrop : ((x :: xs).flatMap encode).drop r.count = xs.flatMap encode := by
        rw [List.flatMap_cons, hr, List.drop_left]
      obtain ⟨-, -, -, hrest⟩ := hcuts
      rw [hdrop] at hrest
      rw [readAll, hdrop, ih hrest fun y hy => hfull y (List.mem_cons_of_mem _ hy)]
      refine congrArg (· :: xs) (hdecode x _ ?_)
      intro i hi
      rw [List.flatMap_cons]
      exact buffer_append r hr hi

/-- A reader gets exactly the records that were written if and only if every read fills its buffer,
    whatever the buffers held before. -/
theorem readAll_eq_iff (hsize : 0 < size) (hlen : ∀ x, (encode x).length = size)
    (hdecode : ∀ x buffer, (∀ i (hi : i < (encode x).length), buffer i = (encode x)[i]) →
      decode buffer = x) {rs : List (Read β)} (hcuts : Cuts size rs (xs.flatMap encode)) :
    readAll decode rs (xs.flatMap encode) = xs ↔ ∀ r ∈ rs, r.count = size := by
  constructor
  · intro heq
    -- there are as many records as reads, so no read was short
    apply (hcuts.length_eq_iff hsize (length_flatMap hlen xs)).mp
    rw [← length_readAll decode rs (xs.flatMap encode), heq]
  · exact readAll_full hsize hlen hdecode hcuts

end

end ByteStream
