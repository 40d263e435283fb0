import Epidemica.Core.Range
import Epidemica.Core.History
import Epidemica.Sockets.Framing

/-!
# `Core.Wire` — the core layer on byte streams

The same nodes, with connections that carry the bytes of `SendMsg`, and handlers that decode what one `recv`
returns, as `ClientService` does. As long as every `recv` fills its buffer and the clocks fit into an `int`,
every run is the encoding of a run of `Core.system` (`wire_refines`): what is proved of messages holds of
bytes.
-/

namespace Epidemica

open Network Transition ByteStream

/-- The enumerators of `Tag`. -/
def Tag.enumerators : List Tag :=
  [.request, .release, .ok, .ack, .end, .begin, .terminate, .ready, .sum, .substract, .multiply, .set,
    .read, .unkown]

/-- The cast `(Tag)data[0]`. A `char` that names no enumerator is treated by every `switch` as `UNKOWN`. -/
def Tag.ofChar (c : UInt8) : Tag := (Tag.enumerators.find? fun t => t.char = c).getD .unkown

@[simp] theorem Tag.ofChar_char (t : Tag) : Tag.ofChar t.char = t := by cases t <;> decide

namespace Wire

/-- The nodes and the bytes in flight. -/
structure State where
  node : Int → CoreNode
  chan : Channels Int UInt8

/-- The steps of `Core.Label`, with `recv`s of bytes in place of messages. -/
inductive Label where
  | submit (p : Int) (d : TransactionData)
  | requester (p : Int)
  /-- The service of `p` for `q` takes one `recv` and calls `HandleMsg` with what the buffer then holds. -/
  | handle (p q : Int) (r : Read UInt8)
  /-- `b`, outside the core layer, takes `count` bytes off the connection from `p`. -/
  | drain (p b : Int) (count : Nat)

/-- As `Core.init`, with no bytes in flight. -/
def init : State := ⟨CoreNode.init, fun _ _ => []⟩

/-- Bytes to send, each with its destination. -/
def outBytes (outs : Outs) : List (Int × UInt8) :=
  outs.flatMap fun o => o.2.frame.bytes.map fun c => (o.1, c)

/-- Node `p` becomes `r.1` and sends the bytes of `r.2`. -/
def State.put (s : State) (p : Int) (r : CoreNode × Outs) : State :=
  ⟨Function.update s.node p r.1, sendAll s.chan p (outBytes r.2)⟩

/-- `count` bytes are taken off the connection from `q` to `p`. -/
def State.take (s : State) (q p : Int) (count : Nat) : State :=
  { s with
    chan := Function.update s.chan q (Function.update (s.chan q) p ((s.chan q p).drop count)) }

/-- A step of `Core.step`, on bytes. -/
def step (cores : List Int) (layers : Int → Layers) (s : State) : Label → Option State
  | .submit p d =>
    if p ∈ cores ∧ (s.node p).idle then
      some (s.put p ((s.node p).executeTransaction (layers p) p d, []))
    else none
  | .requester p =>
    if p ∈ cores ∧ (s.node p).idle = false then
      some (s.put p ((s.node p).requester (layers p) p))
    else none
  | .handle p q r =>
    if p ∈ cores ∧ q ∈ layers p CORE_LAYER ∧
        0 < r.count ∧ r.count ≤ 5 ∧ r.count ≤ (s.chan q p).length then
      let data := Frame.decode (r.buffer (s.chan q p))
      some ((s.take q p r.count).put p
        ((s.node p).handleMsg (layers p) p data.value.toInt q (Tag.ofChar data.tag)))
    else none
  | .drain p b count =>
    if b ∉ cores ∧ 0 < count ∧ count ≤ (s.chan p b).length then some (s.take p b count) else none

/-- The write a step submits. -/
def submitting : Label → List (Int × TransactionData)
  | .submit p d => if d.type = .read then [] else [(p, d)]
  | _ => []

/-- The core layer on byte streams, with the writes submitted. -/
def system (net : Mesh) : System (State × List (Int × TransactionData)) Label :=
  System.withHistory ⟨fun s => s = init, step net.cores net.layers⟩ []
    fun _ l k => k ++ submitting l

/-- Clients submit what `parseTransaction` yields, and every `recv` fills its buffer. -/
def wholeReads : Guard State Label
  | _, .submit _ d => d.type.isWrite = true ∨ d.type = .read
  | _, .handle _ _ r => r.count = 5
  | _, .drain _ _ count => count = 5
  | _, .requester _ => True

instance : ∀ s l, Decidable (wholeReads s l)
  | _, .submit _ d => inferInstanceAs (Decidable (d.type.isWrite = true ∨ d.type = .read))
  | _, .handle _ _ r => inferInstanceAs (Decidable (r.count = 5))
  | _, .drain _ _ count => inferInstanceAs (Decidable (count = 5))
  | _, .requester _ => isTrue trivial

/-! ## The encoding -/

/-- Every connection carries the frames of its messages. -/
def encode (s : Core.State) : State :=
  ⟨s.node, fun a b => (s.chan a b).flatMap fun m => m.frame.bytes⟩

theorem select_outBytes (b : Int) (outs : Outs) :
    select b (outBytes outs) = (select b outs).flatMap fun m => m.frame.bytes := by
  induction outs with
  | nil => rfl
  | cons o outs ih =>
    obtain ⟨q, m⟩ := o
    show select b ((m.frame.bytes.map fun c => (q, c)) ++ outBytes outs) = _
    rw [select_append, ih, select_map, select_cons, List.flatMap_append]
    split <;> simp

/-- Sending commutes with encoding. -/
theorem encode_put (s : Core.State) (p : Int) (r : CoreNode × Outs) :
    (encode s).put p r = encode (s.put p r) := by
  unfold encode State.put
  congr 1
  funext a b
  rw [sendAll_apply, select_outBytes, Core.put_chan]
  split
  · rw [List.flatMap_append]
  · rfl

/-- So does receiving: five bytes are one message. -/
theorem encode_take {s : Core.State} {p q : Int} {m : Msg} {rest : List Msg}
    (hm : s.chan q p = m :: rest) : (encode s).take q p 5 = encode (s.take q p 0) := by
  have hdrop : ((encode s).chan q p).drop 5 = rest.flatMap fun m => m.frame.bytes := by
    show ((s.chan q p).flatMap fun m => m.frame.bytes).drop 5 = _
    rw [hm, List.flatMap_cons]
    exact List.drop_left' (length_frame m.frame)
  unfold State.take
  rw [hdrop]
  unfold encode
  congr 1
  funext a b
  rw [Core.take_chan]
  by_cases ha : a = q
  · by_cases hb : b = p
    · simp [ha, hb, hm]
    · simp [ha, hb]
  · simp [ha]

/-- A full `recv` decodes the oldest message, if its value is an `int`. -/
theorem decode_encode {s : Core.State} {p q : Int} {r : Read UInt8} (hr : r.count = 5)
    (hle : 5 ≤ ((encode s).chan q p).length)
    (hint : ∀ m ∈ s.chan q p, (Int32.ofInt m.value).toInt = m.value) :
    ∃ m rest, s.chan q p = m :: rest ∧
      (Frame.decode (r.buffer ((encode s).chan q p))).value.toInt = m.value ∧
      Tag.ofChar (Frame.decode (r.buffer ((encode s).chan q p))).tag = m.tag := by
  cases hchan : s.chan q p with
  | nil =>
    have hnil : (encode s).chan q p = [] := by
      show (s.chan q p).flatMap _ = []
      rw [hchan]
      rfl
    rw [hnil] at hle
    exact absurd hle (by decide)
  | cons m rest =>
    have hbytes : (encode s).chan q p = m.frame.bytes ++ rest.flatMap fun m => m.frame.bytes := by
      show (s.chan q p).flatMap _ = _
      rw [hchan, List.flatMap_cons]
    have hdecode : Frame.decode (r.buffer ((encode s).chan q p)) = m.frame := by
      apply Frame.decode_bytes
      intro i hi
      rw [hbytes]
      exact buffer_append r (hr.trans (length_frame m.frame).symm) hi
    rw [hdecode]
    exact ⟨m, rest, rfl, hint m (hchan ▸ List.mem_cons_self), Tag.ofChar_char m.tag⟩

/-! ## The refinement -/

/-- Clients submit what `parseTransaction` yields, and connections are queues. -/
abbrev queues : Guard Core.State Core.Label := fun s l => Core.clients s l ∧ Core.fifo s l

/-- A step on bytes is the step on messages that it decodes to. -/
theorem encode_step {net : Mesh} {s : Core.State} {l : Label} {w : State}
    (hint : ∀ p q, ∀ m ∈ s.chan p q, (Int32.ofInt m.value).toInt = m.value)
    (hg : wholeReads (encode s) l) (hst : step net.cores net.layers (encode s) l = some w) :
    ∃ l' t, queues s l' ∧ (Core.system net).step s l' = some t ∧ w = encode t ∧
      Core.submitting l' = submitting l := by
  cases l with
  | submit p d =>
    simp only [step] at hst
    split at hst
    · rename_i hp
      refine ⟨.submit p d, _, ⟨hg, trivial⟩, if_pos hp, ?_, rfl⟩
      rw [← encode_put]
      exact (Option.some.inj hst).symm
    · exact absurd hst (by simp)
  | requester p =>
    simp only [step] at hst
    split at hst
    · rename_i hp
      refine ⟨.requester p, _, ⟨trivial, trivial⟩, if_pos hp, ?_, rfl⟩
      rw [← encode_put]
      exact (Option.some.inj hst).symm
    · exact absurd hst (by simp)
  | handle p q r =>
    simp only [step] at hst
    split at hst
    · rename_i hp
      obtain ⟨hcore, hq, -, -, hle⟩ := hp
      have hfull : r.count = 5 := hg
      rw [hfull] at hle hst
      obtain ⟨m, rest, hm, hvalue, htag⟩ := decode_encode hfull hle (hint q p)
      rw [hvalue, htag, encode_take hm, encode_put] at hst
      refine ⟨.handle p q 0, _, ⟨trivial, rfl⟩, ?_, (Option.some.inj hst).symm, rfl⟩
      simp [Core.system, Core.step, hcore, hq, hm, encode]
    · exact absurd hst (by simp)
  | drain p b count =>
    simp only [step] at hst
    split at hst
    · rename_i hb
      obtain ⟨hcore, -, hle⟩ := hb
      obtain rfl : count = 5 := hg
      cases hchan : s.chan p b with
      | nil => exact absurd hle (by simp [encode, hchan])
      | cons m rest =>
        rw [encode_take hchan] at hst
        refine ⟨.drain p b, _, ⟨trivial, trivial⟩, ?_, (Option.some.inj hst).symm, rfl⟩
        simp [Core.system, Core.step, hcore, hchan]
    · exact absurd hst (by simp)

/-- A run and its traffic are on record together. -/
theorem exists_carried {net : Mesh} {G : Guard Core.State Core.Label} {s : Core.State} {h : Core.Hist}
    (hs : Reachable (Core.historySystem net) (Guard.past G) (s, h)) :
    ∃ k, Reachable (Core.trafficSystem net) (Guard.past G) (s, k) ∧ k.submitted = h.submitted := by
  refine Reachable.invariant (I := fun y => ∃ k,
    Reachable (Core.trafficSystem net) (Guard.past G) (y.1, k) ∧ k.submitted = y.2.submitted) ?_ ?_ hs
  · rintro ⟨s, h⟩ ⟨hs, rfl⟩
    exact ⟨⟨[], []⟩, Reachable.of_init ⟨hs, rfl⟩, rfl⟩
  · rintro ⟨s, h⟩ l ⟨t, h'⟩ _ ⟨k, hk, hsub⟩ hg hst
    obtain ⟨hmove, rfl⟩ := Core.history_step hst
    refine ⟨_, hk.step hg (withHistory_step.mpr ⟨hmove, rfl⟩), ?_⟩
    simp [Core.record, hsub]

/-- A step on messages is a step on bytes, with a `recv` that fills its buffer. -/
theorem step_encode {net : Mesh} {s t : Core.State} {l : Core.Label}
    (hint : ∀ p q, ∀ m ∈ s.chan p q, (Int32.ofInt m.value).toInt = m.value)
    (hg : queues s l) (hst : (Core.system net).step s l = some t) :
    ∃ l', wholeReads (encode s) l' ∧ step net.cores net.layers (encode s) l' = some (encode t) ∧
      submitting l' = Core.submitting l := by
  have hlength : ∀ {p q m rest}, s.chan q p = m :: rest → 5 ≤ ((encode s).chan q p).length := by
    intro p q m rest hm
    simp [encode, hm]
  cases l with
  | submit p d =>
    obtain ⟨hp, hidle, rfl⟩ := Core.step_submit hst
    refine ⟨.submit p d, hg.1, ?_, rfl⟩
    rw [← encode_put]
    exact if_pos ⟨hp, hidle⟩
  | requester p =>
    obtain ⟨hp, hidle, rfl⟩ := Core.step_requester hst
    refine ⟨.requester p, trivial, ?_, rfl⟩
    rw [← encode_put]
    exact if_pos ⟨hp, hidle⟩
  | handle p q i =>
    obtain ⟨hp, hq, m, hm, rfl⟩ := Core.step_handle hst
    obtain rfl : i = 0 := hg.2
    cases hchan : s.chan q p with
    | nil => exact absurd hm (by simp [hchan])
    | cons x rest =>
      obtain rfl : x = m := by simpa [hchan] using hm
      have hle := hlength hchan
      obtain ⟨x', rest', hx, hvalue, htag⟩ := decode_encode (r := recv 5) rfl hle (hint q p)
      obtain ⟨rfl, -⟩ := List.cons.inj (hchan.symm.trans hx)
      refine ⟨.handle p q (recv 5), rfl, ?_, rfl⟩
      rw [← encode_put, ← encode_take hchan, ← hvalue, ← htag]
      exact if_pos ⟨hp, hq, by decide, by decide, hle⟩
  | drain p b =>
    obtain ⟨hb, hne, rfl⟩ := Core.step_drain net.layers hst
    cases hchan : s.chan p b with
    | nil => exact absurd hchan hne
    | cons m rest =>
      refine ⟨.drain p b 5, rfl, ?_, rfl⟩
      rw [← encode_take hchan]
      exact if_pos ⟨hb, by decide, hlength hchan⟩

/-- The writes so far are few enough for every value on a connection to be an `int`. -/
def Few (net : Mesh) (k : List (Int × TransactionData)) : Prop :=
  1 + (3 * (net.size - 1) + 1) * k.length < 2 ^ 31

section
variable {net : Mesh} {k : List (Int × TransactionData)} {s : Core.State} {h : Core.Hist}

theorem Few.left {k' : List (Int × TransactionData)} (hfew : Few net (k ++ k')) : Few net k := by
  have hle : (3 * (net.size - 1) + 1) * k.length ≤ (3 * (net.size - 1) + 1) * (k ++ k').length :=
    Nat.mul_le_mul_left _ (by simp)
  unfold Few at hfew ⊢
  omega

theorem Few.toInt (hfew : Few net h.submitted)
    (hs : Reachable (Core.historySystem net) (Guard.past queues) (s, h)) :
    ∀ p q, ∀ m ∈ s.chan p q, (Int32.ofInt m.value).toInt = m.value := by
  obtain ⟨c, hc, hsub⟩ := exists_carried hs
  apply (Core.no_overflow net s c (hc.mono fun _ _ hq => hq.1)).2
  rw [hsub]
  exact hfew

theorem refines {y : State × List (Int × TransactionData)}
    (hy : Reachable (system net) (Guard.past wholeReads) y) (hfew : Few net y.2) :
    ∃ s h, Reachable (Core.historySystem net) (Guard.past queues) (s, h) ∧ h.submitted = y.2 ∧
      y.1 = encode s := by
  revert hfew
  refine Reachable.invariant (I := fun y => Few net y.2 → ∃ s h,
    Reachable (Core.historySystem net) (Guard.past queues) (s, h) ∧ h.submitted = y.2 ∧ y.1 = encode s)
    ?_ ?_ hy
  · rintro ⟨w, k⟩ ⟨rfl, rfl⟩ _
    exact ⟨Core.init, Core.Hist.empty, Reachable.of_init ⟨rfl, rfl⟩, rfl, rfl⟩
  · rintro ⟨w, k⟩ l ⟨w', k'⟩ _ ih hg hst hfew
    obtain ⟨hmove, rfl⟩ := withHistory_step.mp hst
    obtain ⟨s, h, hs, rfl, rfl⟩ := ih hfew.left
    obtain ⟨l', t, hg', hst', rfl, hlabel⟩ := encode_step (Few.toInt hfew.left hs) hg hmove
    refine ⟨t, _, hs.step hg' (withHistory_step.mpr ⟨hst', rfl⟩), ?_, rfl⟩
    simp [hlabel]

theorem implemented (hs : Reachable (Core.historySystem net) (Guard.past queues) (s, h))
    (hfew : Few net h.submitted) :
    Reachable (system net) (Guard.past wholeReads) (encode s, h.submitted) := by
  revert hfew
  refine Reachable.invariant (I := fun y => Few net y.2.submitted →
    Reachable (system net) (Guard.past wholeReads) (encode y.1, y.2.submitted)) ?_ ?_ hs
  · rintro ⟨s, h⟩ ⟨rfl, rfl⟩ _
    exact Reachable.of_init ⟨rfl, rfl⟩
  · rintro ⟨s, h⟩ l ⟨t, h'⟩ hr ih hg hst hfew
    obtain ⟨hmove, rfl⟩ := Core.history_step hst
    have hold : Few net h.submitted := hfew.left
    obtain ⟨l', hg', hst', hlabel⟩ := step_encode (hold.toInt hr) hg hmove
    refine (ih hold).step hg' (withHistory_step.mpr ⟨hst', ?_⟩)
    simp [Core.record, hlabel]

end

/-- Before the clocks can leave the range of an `int`, which takes more than `(2 ^ 31 - 2) / (3 n - 2)` writes
    in a layer of `n` nodes, full reads make the byte streams a faithful implementation of the messages: the
    states reached on bytes are the encodings of those reached on messages with the same writes. -/
theorem wire_refines (net : Mesh) (w : State) (k : List (Int × TransactionData)) (hfew : Few net k) :
    Reachable (system net) (Guard.past wholeReads) (w, k) ↔
      ∃ s h, Reachable (Core.historySystem net) (Guard.past queues) (s, h) ∧ h.submitted = k ∧
        w = encode s := by
  constructor
  · intro hw
    exact refines hw hfew
  · rintro ⟨s, h, hs, rfl, rfl⟩
    exact implemented hs hfew

/-- The bytes of one write between two nodes are all handled. -/
theorem wire_refines_settledRun :
    ∃ w, Reachable (system Mesh.two) (Guard.past wholeReads) (w, [(1, ⟨.sum, 5⟩)]) ∧
      w.chan 1 2 = [] ∧ w.chan 2 1 = [] := by
  obtain ⟨⟨s, h⟩, -, hs, hP⟩ := Reachable.of_exec (Core.historySystem Mesh.two)
    (Guard.past fun s l => Core.clients s l ∧ Core.fifo s l) (Core.init, Core.Hist.empty) Core.settledRun
    (fun y => (y.1.chan 1 2).isEmpty && (y.1.chan 2 1).isEmpty && y.2.submitted == [(1, ⟨.sum, 5⟩)])
    ⟨rfl, rfl⟩ (by decide)
  simp only [Bool.and_eq_true, beq_iff_eq, List.isEmpty_iff] at hP
  obtain ⟨⟨h₁₂, h₂₁⟩, hsub⟩ := hP
  refine ⟨encode s, (wire_refines Mesh.two (encode s) [(1, ⟨.sum, 5⟩)] (by unfold Few; decide)).mpr
    ⟨s, h, hs, hsub, rfl⟩, ?_, ?_⟩
  · simp [encode, h₁₂]
  · simp [encode, h₂₁]

end Wire
end Epidemica
