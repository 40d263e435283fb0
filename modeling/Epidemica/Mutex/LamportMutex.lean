import Epidemica.Mutex.DirectClock
import Epidemica.Nodes.MsgHandler

/-!
# `Mutex.LamportMutex` — requestCS, releaseCS, okeyCS and HandleMsg

`HandleMsg` is one function: the handlers of a node are serialised. `requestCS` and `releaseCS` run in
another thread and take no lock that the handler takes, so they are cut at every statement: `Pc` says
where the thread stands and `MutexNode.requester` executes its next statement.
-/

namespace Epidemica

/-- `class LamportMutex`: the clock and `m_RequestQ`. -/
structure LamportMutex where
  clock : DirectClock
  requestQ : Int → Option Int

/-- `static bool isGreater`. -/
def isGreater (entry1 id1 entry2 id2 : Int) : Bool :=
  entry1 > entry2 || (entry1 == entry2 && id1 > id2)

@[simp] theorem isGreater_eq_true {e₁ i₁ e₂ i₂ : Int} :
    isGreater e₁ i₁ e₂ i₂ = true ↔ e₂ < e₁ ∨ e₁ = e₂ ∧ i₂ < i₁ := by
  simp [isGreater]

@[simp] theorem isGreater_eq_false {e₁ i₁ e₂ i₂ : Int} :
    isGreater e₁ i₁ e₂ i₂ = false ↔ e₁ ≤ e₂ ∧ (e₁ = e₂ → i₁ ≤ i₂) := by
  simp [isGreater]

namespace LamportMutex

/-- The constructor: own clock `1`, nothing queued. -/
def init (me : Int) : LamportMutex := ⟨DirectClock.init me, fun _ => none⟩

/-- `m_RequestQ[id] = ticks`. -/
def enqueue (m : LamportMutex) (id ticks : Int) : LamportMutex :=
  { m with requestQ := Function.update m.requestQ id (some ticks) }

/-- `m_RequestQ.erase(id)`. -/
def erase (m : LamportMutex) (id : Int) : LamportMutex :=
  { m with requestQ := Function.update m.requestQ id none }

/-- `m_DirectClock.Tick()`. -/
def tick (me : Int) (m : LamportMutex) : LamportMutex := { m with clock := m.clock.tick me }

/-- `m_DirectClock.RecieveAction(src, message)`. -/
def recieveAction (me : Int) (m : LamportMutex) (src message : Int) : LamportMutex :=
  { m with clock := m.clock.recieveAction me src message }

/-- `okeyCS`, over the ids of `GetLayer(CORE_LAYER)`. -/
def okeyCS (peers : List Int) (me : Int) (m : LamportMutex) : Bool :=
  match m.requestQ me with
  | some myTicks =>
    peers.all fun otherId =>
      (match m.requestQ otherId with
        | some ticks => !isGreater myTicks me ticks otherId
        | none => true) &&
      !isGreater myTicks me (m.clock.getValue otherId) otherId
  | none => true

/-- `HandleMsg`: the new state and the messages sent. The final `notify_all` wakes a waiting requester,
    which here re-tests by taking its next step. -/
def handleMsg (me : Int) (m : LamportMutex) (message src : Int) (tag : Tag) : LamportMutex × Outs :=
  let m := m.recieveAction me src message
  match tag with
  | .request => (m.enqueue src message, [(src, ⟨.ack, m.clock.getValue me⟩)])
  | .release => (m.erase src, [])
  | _ => (m, [])

/-! ## Field lemmas -/

section
variable (m : LamportMutex) (me i t v : Int)

@[simp] theorem enqueue_clock : (m.enqueue i t).clock = m.clock := rfl
@[simp] theorem erase_clock : (m.erase i).clock = m.clock := rfl
@[simp] theorem tick_clock : (m.tick me).clock = m.clock.tick me := rfl
@[simp] theorem tick_requestQ : (m.tick me).requestQ = m.requestQ := rfl
@[simp] theorem recieveAction_clock :
    (m.recieveAction me i v).clock = m.clock.recieveAction me i v := rfl
@[simp] theorem recieveAction_requestQ : (m.recieveAction me i v).requestQ = m.requestQ := rfl

@[simp] theorem enqueue_requestQ (j : Int) :
    (m.enqueue i t).requestQ j = if j = i then some t else m.requestQ j := by
  by_cases h : j = i <;> simp [enqueue, h]

@[simp] theorem erase_requestQ (j : Int) :
    (m.erase i).requestQ j = if j = i then none else m.requestQ j := by
  by_cases h : j = i <;> simp [erase, h]

/-- Whatever the tag, the handler's effect on the clock is `RecieveAction`. -/
@[simp] theorem handleMsg_clock (tag : Tag) :
    (m.handleMsg me v i tag).1.clock = m.clock.recieveAction me i v := by
  cases tag <;> rfl

end

/-- The handler writes the entry of the sender and no other. -/
theorem handleMsg_requestQ (m : LamportMutex) (me v src : Int) (tag : Tag) (j : Int) :
    (m.handleMsg me v src tag).1.requestQ j =
      if j = src ∧ tag = .request then some v
      else if j = src ∧ tag = .release then none else m.requestQ j := by
  by_cases hj : j = src <;> cases tag <;> simp [handleMsg, hj]

/-- The handler sends nothing but the acknowledgement of a request, to its sender. -/
theorem handleMsg_outs (m : LamportMutex) (me v src : Int) (tag : Tag) :
    (m.handleMsg me v src tag).2 =
      if tag = .request then [(src, ⟨.ack, (m.clock.recieveAction me src v).getValue me⟩)] else [] := by
  cases tag <;> rfl

/-- What a true test of a queued requester says of each peer. -/
theorem okeyCS_iff {peers : List Int} {me t : Int} {m : LamportMutex} (hown : m.requestQ me = some t) :
    m.okeyCS peers me = true ↔
      ∀ q ∈ peers, (∀ u, m.requestQ q = some u → isGreater t me u q = false) ∧
        isGreater t me (m.clock.getValue q) q = false := by
  simp only [okeyCS, hown, List.all_eq_true, Bool.and_eq_true, Bool.not_eq_true']
  apply forall₂_congr
  intro q _
  apply and_congr_left
  intro _
  cases m.requestQ q <;> simp

end LamportMutex

/-! ## The requester's thread -/

/-- Where the thread that calls `requestCS` and `releaseCS` stands. `ticks` is the local variable of
    `requestCS`; it is kept until the release ends, as the name of the request. -/
inductive Pc where
  /-- Outside; the next statement is the `Tick` of a new `requestCS`. -/
  | idle
  /-- After `Tick`, before `GetValue`. -/
  | getValue
  /-- Before the store into `m_RequestQ`. -/
  | store (ticks : Int)
  /-- In `BroadcastMsg(REQUEST)`; `todo` has not been sent to. -/
  | sendRequest (ticks : Int) (todo : List Int)
  /-- At `cv_Wait.wait`. -/
  | wait (ticks : Int)
  /-- Between the return of `requestCS` and the next `releaseCS`. -/
  | inCS (ticks : Int)
  /-- In `releaseCS`, own entry erased, before `GetValue`. -/
  | getRelease (ticks : Int)
  /-- In `BroadcastMsg(RELEASE)`. -/
  | sendRelease (ticks value : Int) (todo : List Int)
  deriving DecidableEq, Repr

namespace Pc

/-- Between the return of `requestCS` and the next `releaseCS`. -/
def isInCS : Pc → Bool
  | .inCS _ => true
  | _ => false

/-- At `cv_Wait.wait`. -/
def isWait : Pc → Bool
  | .wait _ => true
  | _ => false

theorem isWait_iff {pc : Pc} : pc.isWait = true ↔ ∃ t, pc = .wait t := by
  cases pc <;> simp [isWait]

theorem isInCS_iff {pc : Pc} : pc.isInCS = true ↔ ∃ t, pc = .inCS t := by
  cases pc <;> simp [isInCS]

end Pc

/-- A mutex together with the thread that uses it. -/
structure MutexNode where
  lamport : LamportMutex
  pc : Pc

namespace MutexNode

/-- No call of `requestCS` is in progress. -/
def init (me : Int) : MutexNode := ⟨LamportMutex.init me, .idle⟩

/-- The next statement of `requestCS` or `releaseCS`. At the wait it is one `okeyCS` test. -/
def requester (peers : List Int) (me : Int) (n : MutexNode) : MutexNode × Outs :=
  match n.pc with
  | .idle => ({ n with lamport := n.lamport.tick me, pc := .getValue }, [])
  | .getValue => ({ n with pc := .store (n.lamport.clock.getValue me) }, [])
  | .store t => ({ n with lamport := n.lamport.enqueue me t, pc := .sendRequest t peers }, [])
  | .sendRequest t (q :: todo) => ({ n with pc := .sendRequest t todo }, [(q, ⟨.request, t⟩)])
  | .sendRequest t [] => ({ n with pc := .wait t }, [])
  | .wait t => if n.lamport.okeyCS peers me then ({ n with pc := .inCS t }, []) else (n, [])
  | .inCS t => ({ n with lamport := n.lamport.erase me, pc := .getRelease t }, [])
  | .getRelease t => ({ n with pc := .sendRelease t (n.lamport.clock.getValue me) peers }, [])
  | .sendRelease t v (q :: todo) => ({ n with pc := .sendRelease t v todo }, [(q, ⟨.release, v⟩)])
  | .sendRelease _ _ [] => ({ n with pc := .idle }, [])

/-- `HandleMsg` on the mutex of the node. The requester's thread does not move. -/
def handle (me : Int) (n : MutexNode) (message src : Int) (tag : Tag) : MutexNode × Outs :=
  let r := n.lamport.handleMsg me message src tag
  ({ n with lamport := r.1 }, r.2)

@[simp] theorem handle_pc (me : Int) (n : MutexNode) (v src : Int) (tag : Tag) :
    (n.handle me v src tag).1.pc = n.pc := rfl

section
variable {me src : Int} (n : MutexNode) (v : Int) (tag : Tag)

theorem handle_clock_self (h : src ≠ me) :
    (n.handle me v src tag).1.lamport.clock.getValue me = max (n.lamport.clock.getValue me) v + 1 := by
  simp [handle, h]

theorem handle_clock_sender (h : src ≠ me) :
    (n.handle me v src tag).1.lamport.clock.getValue src = max (n.lamport.clock.getValue src) v := by
  simp [handle, h]

theorem handle_clock_of_ne {i : Int} (hi : i ≠ me) (hs : i ≠ src) :
    (n.handle me v src tag).1.lamport.clock.getValue i = n.lamport.clock.getValue i := by
  simp [handle, DirectClock.getValue_recieveAction_of_ne hi hs]

end

/-- The handler sends at most an acknowledgement, to the sender of what it handles, with the own clock as it
    leaves it. -/
theorem mem_handle {me v src : Int} {tag : Tag} {n : MutexNode} {o : Int × Msg}
    (ho : o ∈ (n.handle me v src tag).2) :
    o = (src, ⟨.ack, (n.handle me v src tag).1.lamport.clock.getValue me⟩) := by
  unfold handle at ho ⊢
  rw [LamportMutex.handleMsg_outs] at ho
  rw [LamportMutex.handleMsg_clock]
  split at ho
  · exact List.mem_singleton.mp ho
  · exact absurd ho (by simp)

theorem ack_of_mem_select {b me v src : Int} {tag : Tag} {n : MutexNode} {m : Msg}
    (hm : m ∈ Network.select b (n.handle me v src tag).2) :
    m = ⟨.ack, (n.handle me v src tag).1.lamport.clock.getValue me⟩ :=
  (Prod.mk.inj (mem_handle (Network.mem_select.mp hm))).2

end MutexNode

end Epidemica
