import Epidemica.Core.System

/-!
# `Core.Steps` — what one step can do to a write in progress

`CoreNode.pending?` is the write a node is carrying out, as the list of peers it has not been sent to.
The lemmas below say once, for the client thread and for the handler, how a step moves it, which writes
and `READY`s it sends, and what it leaves alone; the invariants of the core layer cite these and unfold
no function of the node.
-/

namespace Epidemica

open Network Transition

namespace Msg

/-- A `READY`. -/
def isReady (m : Msg) : Bool := m.tag = .ready

/-- A message that `CoreNode::HandleMsg` passes on to the mutex, by its `default` branch. -/
def isMutex (m : Msg) : Bool :=
  match m.tag with
  | .ready | .read | .sum | .substract | .multiply => false
  | _ => true

end Msg

/-- The writes among a stretch of messages. -/
def writesIn (l : List Msg) : List TransactionData := l.filterMap Msg.write?

/-- How many `READY`s there are among them. -/
def readysIn (l : List Msg) : Nat := l.countP Msg.isReady

@[simp] theorem writesIn_nil : writesIn [] = [] := rfl
@[simp] theorem readysIn_nil : readysIn [] = 0 := rfl

@[simp] theorem writesIn_append (l₁ l₂ : List Msg) :
    writesIn (l₁ ++ l₂) = writesIn l₁ ++ writesIn l₂ := List.filterMap_append

@[simp] theorem readysIn_append (l₁ l₂ : List Msg) :
    readysIn (l₁ ++ l₂) = readysIn l₁ + readysIn l₂ := List.countP_append

@[simp] theorem writesIn_cons (m : Msg) (l : List Msg) :
    writesIn (m :: l) = m.write?.toList ++ writesIn l := by
  cases h : m.write? <;> simp [writesIn, h]

@[simp] theorem readysIn_cons (m : Msg) (l : List Msg) :
    readysIn (m :: l) = (if m.isReady then 1 else 0) + readysIn l := by
  unfold readysIn
  rw [List.countP_cons, Nat.add_comm]

/-- Messages of the mutex are neither writes nor `READY`s. -/
theorem Msg.isMutex_spec {m : Msg} (h : m.isMutex = true) : m.write? = none ∧ m.isReady = false := by
  obtain ⟨tag, v⟩ := m
  cases tag <;> simp_all [Msg.isMutex, Msg.write?, Msg.isReady]

theorem writesIn_eq_nil {l : List Msg} (h : ∀ m ∈ l, m.write? = none) : writesIn l = [] := by
  simpa [writesIn, List.filterMap_eq_nil_iff] using h

theorem readysIn_eq_zero {l : List Msg} (h : ∀ m ∈ l, m.isReady = false) : readysIn l = 0 := by
  simpa [readysIn, List.countP_eq_zero] using h

namespace MutexNode

/-- A statement of `requestCS` or `releaseCS` sends messages of the mutex only. -/
theorem requester_isMutex {peers : List Int} {me : Int} {n : MutexNode} :
    ∀ o ∈ (n.requester peers me).2, o.2.isMutex = true := by
  obtain ⟨m, pc⟩ := n
  rcases pc with _ | _ | _ | ⟨_, _ | _⟩ | _ | _ | _ | ⟨_, _, _ | _⟩ <;>
    simp only [MutexNode.requester] <;> (try split) <;> simp [Msg.isMutex]

/-- The handler of the mutex sends at most an acknowledgement, to the sender of what it handles. -/
theorem handle_outs {me v src : Int} {tag : Tag} {n : MutexNode} :
    ∀ o ∈ (n.handle me v src tag).2, o.1 = src ∧ o.2.isMutex = true := by
  intro o ho
  rw [mem_handle ho]
  exact ⟨rfl, rfl⟩

/-- The thread gets into the critical section by a true test at its wait, and by nothing else. -/
theorem requester_isInCS (peers : List Int) (me : Int) {n : MutexNode}
    (hpc : n.pc.isInCS = false) :
    (n.requester peers me).1.pc.isInCS = (n.pc.isWait && n.lamport.okeyCS peers me) := by
  obtain ⟨m, pc⟩ := n
  rcases pc with _ | _ | _ | ⟨_, _ | _⟩ | _ | _ | _ | ⟨_, _, _ | _⟩ <;>
    simp only [MutexNode.requester] <;> (try split) <;> simp_all [Pc.isInCS, Pc.isWait]

end MutexNode

namespace CoreNode

variable {L : Layers} {me : Int} {n : CoreNode}

/-- The peers to which the write in progress has not been sent; `none` if no write is in progress. -/
def pending? (n : CoreNode) : Option (List Int) :=
  if n.mutex.pc.isInCS then
    match n.cs with
    | .sendWrite todo => some todo
    | .done => none
    | _ => some []
  else none

/-- A write is in progress from the return of `requestCS` to the reset of `m_FinishedNodes`. -/
theorem pending?_isSome : n.pending?.isSome = true ↔ n.mutex.pc.isInCS = true ∧ n.cs ≠ .done := by
  unfold pending?
  split
  · cases n.cs <;> simp_all
  · simp_all

/-- The thread stands between the wait for the `READY`s and the reset of their count. -/
def resetting (n : CoreNode) : Prop := n.mutex.pc.isInCS = true ∧ n.cs = .resetFinished

/-- No statement before `releaseCS` touches the mutex or the transaction. -/
theorem critical_frame : (n.critical L).1.mutex = n.mutex ∧ (n.critical L).1.trans = n.trans := by
  unfold critical
  split <;> (try split) <;> exact ⟨rfl, rfl⟩

/-- A failed test of the client thread changes nothing in the core layer. -/
theorem requester_of_not_wakes (hstand : n.standing = true) (hnot : ¬ n.wakes L me) :
    n.requester L me = (n, []) := by
  obtain ⟨⟨m, pc⟩, cs, d, tr, wc, fin⟩ := n
  cases pc with
  | wait t =>
    have hfail : ¬ m.okeyCS (L CORE_LAYER) me = true := fun h => hnot (Or.inl ⟨rfl, h⟩)
    simp [requester, MutexNode.requester, Pc.isInCS, hfail]
  | inCS t =>
    obtain rfl : cs = .waitReady := by simpa [standing, Pc.isWait, Pc.isInCS] using hstand
    have hfail : ¬ fin = (L CORE_LAYER).length := fun h => hnot (Or.inr ⟨rfl, rfl, h⟩)
    simp [requester, critical, Pc.isInCS, hfail]
  | _ => exact absurd hstand (by simp [standing, Pc.isWait, Pc.isInCS])

/-- The statements of the client thread, as far as the write in progress is concerned. -/
inductive Move (L : Layers) (me : Int) (n : CoreNode) : CoreNode × Outs → Prop where
  /-- `requestCS` returns. -/
  | enter (r) : n.enters L me = true → n.mutex.pc.isInCS = false → n.pending? = none →
      r.1.pending? = some (L CORE_LAYER) → r.1.finishedNodes = n.finishedNodes →
      r.1.trans = n.trans → r.2 = [] → Move L me n r
  /-- The write is sent to the next peer. -/
  | send (r) (x : Int) (todo : List Int) : n.enters L me = false → n.pending? = some (x :: todo) →
      r.1.pending? = some todo → r.1.finishedNodes = n.finishedNodes → r.1.trans = n.trans →
      r.2 = [(x, n.trans.msg)] → Move L me n r
  /-- The wait is over and `m_FinishedNodes` is reset. -/
  | reset (r) : n.resetting → n.enters L me = false → n.pending? = some [] → r.1.pending? = none →
      r.1.finishedNodes = 0 → r.1.trans = n.trans → r.2 = [] → Move L me n r
  /-- Anything else. -/
  | stay (r) : n.enters L me = false → r.1.pending? = n.pending? →
      r.1.finishedNodes = n.finishedNodes → r.1.trans = n.trans →
      (∀ o ∈ r.2, o.2.write? = none ∧ o.2.isReady = false) → Move L me n r

theorem requester_move : Move L me n (n.requester L me) := by
  obtain ⟨⟨m, pc⟩, cs, d, tr, wc, fin⟩ := n
  unfold requester
  split
  · rename_i hcs
    obtain ⟨hin, hdone⟩ := hcs
    obtain ⟨t, rfl⟩ := Pc.isInCS_iff.mp hin
    rcases cs with _ | _ | _ | _ | _ | ⟨v, _ | _⟩ | _ | _ | _ | _
    case sendWrite todo =>
      cases todo with
      | nil => exact Move.stay _ rfl rfl rfl rfl (by simp [critical])
      | cons x todo => exact Move.send _ x todo rfl rfl rfl rfl rfl rfl
    case testCount =>
      refine Move.stay _ rfl ?_ rfl rfl (by simp [critical])
      simp only [critical]
      split <;> rfl
    case waitReady =>
      simp only [critical]
      split
      · exact Move.stay _ rfl rfl rfl rfl (by simp)
      · exact Move.stay _ rfl rfl rfl rfl (by simp)
    case resetFinished => exact Move.reset _ ⟨rfl, rfl⟩ rfl rfl rfl rfl rfl rfl
    case done => exact absurd rfl hdone
    all_goals exact Move.stay _ rfl rfl rfl rfl (by simp [critical, Msg.write?, Msg.isReady])
  · rename_i hcs
    -- a statement of the mutex enters by a true test, or leaves the write in progress alone
    have hmutex : ∀ o ∈ (MutexNode.requester (L CORE_LAYER) me ⟨m, pc⟩).2,
        o.2.write? = none ∧ o.2.isReady = false :=
      fun o ho => Msg.isMutex_spec (MutexNode.requester_isMutex o ho)
    cases hin : pc.isInCS with
    | true =>
      obtain ⟨t, rfl⟩ := Pc.isInCS_iff.mp hin
      obtain rfl : cs = .done := by simpa [Pc.isInCS] using hcs
      exact Move.stay _ (by simp [enters, Pc.isWait]) rfl rfl rfl hmutex
    | false =>
      have hnext := MutexNode.requester_isInCS (L CORE_LAYER) me (n := ⟨m, pc⟩) hin
      cases hent : enters L me ⟨⟨m, pc⟩, cs, d, tr, wc, fin⟩ with
      | true =>
        rw [show (pc.isWait && m.okeyCS (L CORE_LAYER) me) = true from hent] at hnext
        apply Move.enter _ hent hin (by simp [pending?, hin]) (by simp [pending?, hnext]) rfl rfl
        obtain ⟨t, rfl⟩ := Pc.isWait_iff.mp (Bool.and_eq_true _ _ ▸ hent : _ ∧ _).1
        simp only [MutexNode.requester]
        split <;> rfl
      | false =>
        rw [show (pc.isWait && m.okeyCS (L CORE_LAYER) me) = false from hent] at hnext
        exact Move.stay _ hent (by simp [pending?, hnext, hin]) rfl rfl hmutex

/-- The wait for the `READY`s ends when their number is that of the peers, and in no other way. -/
theorem requester_resetting (me : Int) (h : (n.requester L me).1.resetting) :
    n.mutex.pc.isInCS = true ∧ n.cs = .waitReady ∧
      (n.requester L me).1.finishedNodes = (L CORE_LAYER).length := by
  obtain ⟨⟨m, pc⟩, cs, d, tr, wc, fin⟩ := n
  obtain ⟨hin', hcs'⟩ := h
  unfold requester at hin' hcs' ⊢
  split at hcs'
  · rename_i hcs
    rw [if_pos hcs] at hin' ⊢
    refine ⟨hcs.1, ?_⟩
    rcases cs with ⟨_ | _⟩ | _ | _ | _ | _ | ⟨_, _ | _⟩ | _ | _ | _ | _ <;>
      simp only [critical] at hcs' ⊢ <;> (try split at hcs') <;> simp_all
  · rename_i hcs
    rw [if_neg hcs] at hin'
    simp only at hin' hcs'
    rw [if_pos hin'] at hcs'
    exact absurd hcs' (by simp)

/-- `HandleMsg` by the kind of message. -/
inductive Handled (L : Layers) (me : Int) (n : CoreNode) (m : Msg) (src : Int) :
    CoreNode × Outs → Prop where
  | ready : m.isReady = true → m.write? = none →
      Handled L me n m src ({ n with finishedNodes := n.finishedNodes + 1 }, [])
  | read : m.isReady = false → m.write? = none → m.isMutex = false → Handled L me n m src (n, [])
  | write (d : TransactionData) : m.isReady = false → m.write? = some d →
      Handled L me n m src (n.handleWrite L d m.value src)
  | mutex : m.isReady = false → m.write? = none → m.isMutex = true →
      Handled L me n m src ({ n with mutex := (n.mutex.handle me m.value src m.tag).1 },
        (n.mutex.handle me m.value src m.tag).2)

theorem handleMsg_handled (L : Layers) (me : Int) (n : CoreNode) (m : Msg) (src : Int) :
    Handled L me n m src (n.handleMsg L me m.value src m.tag) := by
  obtain ⟨tag, v⟩ := m
  cases tag with
  | ready => exact Handled.ready rfl rfl
  | read => exact Handled.read rfl rfl rfl
  | sum => exact Handled.write ⟨.sum, Int32.ofInt v⟩ rfl rfl
  | substract => exact Handled.write ⟨.substract, Int32.ofInt v⟩ rfl rfl
  | multiply => exact Handled.write ⟨.multiply, Int32.ofInt v⟩ rfl rfl
  | _ => exact Handled.mutex rfl rfl rfl

section
variable (d : TransactionData) (v src : Int)

@[simp] theorem handleWrite_mutex : (n.handleWrite L d v src).1.mutex = n.mutex := by
  simp only [handleWrite]; split <;> rfl

@[simp] theorem handleWrite_cs : (n.handleWrite L d v src).1.cs = n.cs := by
  simp only [handleWrite]; split <;> rfl

@[simp] theorem handleWrite_trans : (n.handleWrite L d v src).1.trans = n.trans := by
  simp only [handleWrite]; split <;> rfl

@[simp] theorem handleWrite_finishedNodes :
    (n.handleWrite L d v src).1.finishedNodes = n.finishedNodes := by
  simp only [handleWrite]; split <;> rfl

@[simp] theorem handleWrite_transaction :
    (n.handleWrite L d v src).1.transaction = n.transaction.execute d := by
  simp only [handleWrite]; split <;> rfl

/-- After ten writes a `SET` goes down; in any case `READY` goes back. -/
theorem handleWrite_outs :
    (n.handleWrite L d v src).2 =
      (if n.writeCount + 1 ≥ 10 then
        broadcastMsg L .set (n.transaction.execute d).version.toInt LAYER_ONE else []) ++
      [(src, ⟨.ready, v⟩)] := by
  simp only [handleWrite]; split <;> rfl

end

/-- No message moves the client thread on. -/
theorem handleMsg_pending? (me : Int) (m : Msg) (src : Int) :
    (n.handleMsg L me m.value src m.tag).1.pending? = n.pending? ∧
      (n.handleMsg L me m.value src m.tag).1.trans = n.trans ∧
      (n.handleMsg L me m.value src m.tag).1.cs = n.cs ∧
      (n.handleMsg L me m.value src m.tag).1.mutex.pc = n.mutex.pc := by
  have h := handleMsg_handled L me n m src
  generalize n.handleMsg L me m.value src m.tag = r at h ⊢
  cases h with
  | write d _ _ => simp [pending?]
  | _ => exact ⟨rfl, rfl, rfl, rfl⟩

theorem handleMsg_finishedNodes (me : Int) (m : Msg) (src : Int) :
    (n.handleMsg L me m.value src m.tag).1.finishedNodes =
      n.finishedNodes + if m.isReady then 1 else 0 := by
  have h := handleMsg_handled L me n m src
  generalize n.handleMsg L me m.value src m.tag = r at h ⊢
  cases h <;> simp_all

/-- What a handler sends: `SET`s to the layer below, and the answer to the sender, `READY` or `ACK`. -/
theorem mem_handleMsg {m : Msg} {src : Int} {o : Int × Msg}
    (ho : o ∈ (n.handleMsg L me m.value src m.tag).2) :
    (∃ b ∈ L LAYER_ONE, ∃ v : Int32, o = (b, ⟨.set, v.toInt⟩)) ∨
      (m.write?.isSome = true ∧ o = (src, ⟨.ready, m.value⟩)) ∨
      (m.isMutex = true ∧
        o = (src, ⟨.ack, (n.mutex.handle me m.value src m.tag).1.lamport.clock.getValue me⟩)) := by
  have h := handleMsg_handled L me n m src
  generalize n.handleMsg L me m.value src m.tag = r at h ho
  cases h with
  | ready _ _ | read _ _ _ => exact absurd ho (by simp)
  | write d _ hw =>
    rw [handleWrite_outs] at ho
    rcases List.mem_append.mp ho with ho | ho
    · split at ho
      · obtain ⟨b, hb, rfl⟩ := List.mem_map.mp ho
        exact Or.inl ⟨b, hb, _, rfl⟩
      · exact absurd ho (by simp)
    · exact Or.inr (Or.inl ⟨by simp [hw], List.mem_singleton.mp ho⟩)
  | mutex _ _ hm => exact Or.inr (Or.inr ⟨hm, MutexNode.mem_handle ho⟩)

/-- What goes to another core node `x`: no write, and a `READY` only to answer a write of `x`. -/
theorem handleMsg_select (me : Int) (m : Msg) (src x : Int) (hx : x ∉ L LAYER_ONE) :
    writesIn (select x (n.handleMsg L me m.value src m.tag).2) = [] ∧
    readysIn (select x (n.handleMsg L me m.value src m.tag).2) =
      if x = src ∧ m.write?.isSome then 1 else 0 := by
  have hsets : ∀ v, select x (broadcastMsg L .set v LAYER_ONE) = [] := by
    intro v
    unfold broadcastMsg
    rw [select, List.filterMap_eq_nil_iff]
    rintro ⟨b, y⟩ hb
    obtain ⟨c, hc, heq⟩ := List.mem_map.mp hb
    have hbx : b ≠ x := by
      rintro rfl
      exact hx ((Prod.mk.inj heq).1 ▸ hc)
    simp [hbx]
  have h := handleMsg_handled L me n m src
  generalize n.handleMsg L me m.value src m.tag = r at h ⊢
  cases h with
  | ready _ hw => simp [hw]
  | read _ hw _ => simp [hw]
  | write d _ hw =>
    have hout : select x (n.handleWrite L d m.value src).2 =
        if src = x then [⟨.ready, m.value⟩] else [] := by
      rw [handleWrite_outs, select_append]
      split <;> simp [hsets]
    rw [hout, hw]
    by_cases hsx : src = x
    · simp [hsx, Msg.write?, Msg.isReady]
    · simp [hsx, Ne.symm hsx]
  | mutex _ hw _ =>
    have hout : ∀ o ∈ select x (n.mutex.handle me m.value src m.tag).2, o.isMutex = true :=
      fun o ho => (MutexNode.handle_outs _ (mem_select.mp ho)).2
    refine ⟨writesIn_eq_nil fun o ho => (Msg.isMutex_spec (hout o ho)).1, ?_⟩
    rw [readysIn_eq_zero fun o ho => (Msg.isMutex_spec (hout o ho)).2]
    simp [hw]

end CoreNode

end Epidemica
