import Epidemica.Core.Traffic

/-!
# `Core.Range` — no clock overflows

A clock of the source is an `int`, here it is unbounded. It is advanced once for each write submitted and
once for each message of the mutex handled, and takes over no value that is not a clock's; so no clock, no
entry of a queue and no value on the wire is larger than the number of these events (`inRange`). By the
count of messages that is linear in the number of writes.
-/

namespace Epidemica

open Network Transition

namespace MutexNode

/-- Every clock value that a node holds lies between `0` and `B`. -/
structure Within (B : Nat) (n : MutexNode) : Prop where
  clock : ∀ i, 0 ≤ n.lamport.clock.getValue i ∧ n.lamport.clock.getValue i ≤ B
  queue : ∀ i t, n.lamport.requestQ i = some t → 0 ≤ t ∧ t ≤ B
  thread : ∀ v ∈ n.pc.values, 0 ≤ v ∧ v ≤ B

variable {B C : Nat} {n : MutexNode} {peers : List Int} {me : Int}

theorem Within.mono (h : n.Within B) (hBC : B ≤ C) : n.Within C := by
  have hle : ∀ v : Int, 0 ≤ v ∧ v ≤ B → 0 ≤ v ∧ v ≤ C := fun v hv => ⟨hv.1, by omega⟩
  exact ⟨fun i => hle _ (h.clock i), fun i t ht => hle _ (h.queue i t ht),
    fun v hv => hle _ (h.thread v hv)⟩

theorem within_init (me : Int) : (MutexNode.init me).Within 1 := by
  refine ⟨?_, by simp [MutexNode.init, LamportMutex.init], by simp [MutexNode.init, Pc.values]⟩
  intro i
  simp only [MutexNode.init, LamportMutex.init, DirectClock.getValue_init]
  split <;> omega

/-- A call of `requestCS` advances the clock by one. -/
theorem Within.tick (h : n.Within B) (peers : List Int) (me : Int) (hpc : n.pc = .idle) :
    (n.requester peers me).1.Within (B + 1) := by
  obtain ⟨m, pc⟩ := n
  obtain rfl : pc = .idle := hpc
  refine ⟨?_, ?_, by simp [requester, Pc.values]⟩
  · intro i
    have hme := h.clock me
    have hi := h.clock i
    simp only [requester, LamportMutex.tick_clock, DirectClock.getValue_tick] at hme hi ⊢
    split <;> omega
  · intro i t ht
    have hold := h.queue i t ht
    omega

/-- The rest of `requestCS` and `releaseCS` passes on values of the own clock. -/
theorem Within.requester (h : n.Within B) (hpc : n.pc ≠ .idle) :
    (n.requester peers me).1.Within B := by
  obtain ⟨m, pc⟩ := n
  obtain ⟨hclock, hqueue, hthread⟩ := h
  simp only at hclock hqueue
  rcases pc with _ | _ | t | ⟨t, _ | ⟨q, todo⟩⟩ | t | t | t | ⟨t, v, _ | ⟨q, todo⟩⟩ <;>
    simp only [MutexNode.requester]
  case idle => exact absurd rfl hpc
  case getValue => exact ⟨hclock, hqueue, by simpa [Pc.values] using hclock me⟩
  case store =>
    refine ⟨hclock, ?_, by simpa [Pc.values] using hthread⟩
    intro i u hu
    simp only [LamportMutex.enqueue_requestQ] at hu
    split at hu
    · exact Option.some.inj hu ▸ hthread t (by simp [Pc.values])
    · exact hqueue i u hu
  case wait =>
    split
    · exact ⟨hclock, hqueue, by simpa [Pc.values] using hthread⟩
    · exact ⟨hclock, hqueue, hthread⟩
  case inCS =>
    refine ⟨hclock, ?_, by simpa [Pc.values] using hthread⟩
    intro i u hu
    simp only [LamportMutex.erase_requestQ] at hu
    split at hu
    · exact absurd hu (by simp)
    · exact hqueue i u hu
  case getRelease =>
    refine ⟨hclock, hqueue, ?_⟩
    intro v hv
    simp only [Pc.values, List.mem_cons, List.not_mem_nil, or_false] at hv
    rcases hv with rfl | rfl
    · exact hthread _ (by simp [Pc.values])
    · exact hclock me
  case sendRelease.nil => exact ⟨hclock, hqueue, by simp [Pc.values]⟩
  all_goals exact ⟨hclock, hqueue, by simpa [Pc.values] using hthread⟩

/-- Handling a message advances the clock by one, past the value received. -/
theorem Within.handle {src v : Int} {tag : Tag} (h : n.Within B) (hsrc : src ≠ me)
    (hv : 0 ≤ v ∧ v ≤ B) : (n.handle me v src tag).1.Within (B + 1) := by
  refine ⟨?_, ?_, fun w hw => ?_⟩
  · intro i
    have hi := h.clock i
    by_cases hme : i = me
    · subst hme
      rw [handle_clock_self _ _ _ hsrc]
      omega
    · by_cases his : i = src
      · subst his
        rw [handle_clock_sender _ _ _ hsrc]
        omega
      · rw [handle_clock_of_ne _ _ _ hme his]
        omega
  · intro i t ht
    simp only [MutexNode.handle, LamportMutex.handleMsg_requestQ] at ht
    split at ht
    · have heq := Option.some.inj ht
      omega
    · split at ht
      · exact absurd ht (by simp)
      · have hold := h.queue i t ht
        omega
  · have hold := h.thread w hw
    omega

end MutexNode

/-- `REQUEST`, `ACK` and `RELEASE` carry a clock value. -/
def Msg.stamped (m : Msg) : Bool :=
  match m.tag with
  | .request | .ack | .release => true
  | _ => false

/-- A clock value lies between `0` and `B`, any other value of a message is an `int`. -/
def Msg.Fits (B : Nat) (m : Msg) : Prop :=
  if m.stamped then 0 ≤ m.value ∧ m.value ≤ B else (Int32.ofInt m.value).toInt = m.value

theorem Msg.Fits.mono {B C : Nat} {m : Msg} (h : m.Fits B) (hBC : B ≤ C) : m.Fits C := by
  unfold Msg.Fits at h ⊢
  split
  · rename_i hm
    rw [if_pos hm] at h
    omega
  · rename_i hm
    rw [if_neg hm] at h
    exact h

/-- An `int` is what it is. -/
theorem Msg.fits_toInt {B : Nat} {tag : Tag} (v : Int32) (h : (⟨tag, v.toInt⟩ : Msg).stamped = false) :
    (⟨tag, v.toInt⟩ : Msg).Fits B := by
  unfold Msg.Fits
  rw [h, if_neg (by simp)]
  simp only [Int32.ofInt_toInt]

/-- Below `2 ^ 31` every value is an `int`. -/
theorem Msg.Fits.toInt {B : Nat} {m : Msg} (h : m.Fits B) (hB : B < 2 ^ 31) :
    (Int32.ofInt m.value).toInt = m.value := by
  unfold Msg.Fits at h
  split at h
  · exact Int32.toInt_ofInt_of_le (by omega) (by omega)
  · exact h

/-- A statement of the mutex sends clock values that its thread holds. -/
theorem MutexNode.Within.fits_requester {B : Nat} {n : MutexNode} {peers : List Int} {me : Int}
    (h : n.Within B) : ∀ o ∈ (n.requester peers me).2, o.2.Fits B := by
  intro o ho
  have hvalue := h.thread _ (Mutex.sent_value_mem (mem_select.mpr ho))
  have hstamped : o.2.stamped = true := by
    revert o
    obtain ⟨m, pc⟩ := n
    rcases pc with _ | _ | _ | ⟨_, _ | _⟩ | _ | _ | _ | ⟨_, _, _ | _⟩ <;>
      simp only [MutexNode.requester] <;> (try split) <;> simp [Msg.stamped]
  unfold Msg.Fits
  rw [if_pos hstamped]
  exact hvalue

namespace CoreNode

variable {B : Nat} {L : Layers} {me : Int} {n : CoreNode}

/-- What a client thread sends fits. -/
theorem fits_requester (h : n.mutex.Within B) (hwrite : n.idle = false → n.trans.type.isWrite = true) :
    ∀ o ∈ (n.requester L me).2, o.2.Fits B := by
  intro o ho
  unfold requester at ho
  split at ho
  · rename_i hcs
    obtain ⟨⟨m, pc⟩, cs, tr, d, wc, fin⟩ := n
    obtain ⟨t, rfl⟩ := Pc.isInCS_iff.mp hcs.1
    rcases cs with ⟨_ | ⟨x, todo⟩⟩ | _ | _ | _ | _ | ⟨v, _ | ⟨b, todo⟩⟩ | _ | _ | _ | _ <;>
      simp only [critical] at ho
    case sendWrite.cons =>
      rw [List.mem_singleton.mp ho]
      have hw : tr.type.isWrite = true := hwrite rfl
      obtain ⟨type, value⟩ := tr
      cases type with
      | sum | substract | multiply => exact Msg.fits_toInt value rfl
      | read | set | unkown => exact absurd hw (by simp [TransactionType.isWrite])
    case sendSet.cons =>
      rw [List.mem_singleton.mp ho]
      exact Msg.fits_toInt v rfl
    case waitReady => split at ho <;> simp at ho
    all_goals simp at ho
  · exact h.fits_requester o ho

/-- What the handler sends fits, if the clock does as the message leaves it. -/
theorem fits_handleMsg {m : Msg} {src : Int} (hm : m.Fits B)
    (h : m.isMutex = true → (n.mutex.handle me m.value src m.tag).1.Within B) :
    ∀ o ∈ (n.handleMsg L me m.value src m.tag).2, o.2.Fits B := by
  intro o ho
  rcases mem_handleMsg ho with ⟨b, -, v, rfl⟩ | ⟨hd, rfl⟩ | ⟨hmutex, rfl⟩
  · exact Msg.fits_toInt _ rfl
  · -- the `READY` repeats the argument of the write
    have hstamped : m.stamped = false := by
      obtain ⟨tag, v⟩ := m
      cases tag <;> simp_all [Msg.write?, Msg.stamped]
    unfold Msg.Fits at hm
    rw [if_neg (by simp [hstamped])] at hm
    exact hm
  · exact (h hmutex).clock me

end CoreNode

namespace Core

/-- Every clock value of the core layer lies between `0` and `B`, and every value on the wire fits. -/
structure InRange (B : Nat) (s : State) : Prop where
  node : ∀ p, (s.node p).mutex.Within B
  chan : ∀ p q, ∀ m ∈ s.chan p q, m.Fits B

/-- The messages that carry a clock value. -/
def stampedFare : Fare
  | .request | .ack | .release => 1
  | .write | .ready => 0

section
variable {net : Mesh} {s : State} {p : Int} {B C : Nat}

theorem InRange.put (h : InRange B s) (hBC : B ≤ C) {r : CoreNode × Outs} (hnode : r.1.mutex.Within C)
    (houts : ∀ o ∈ r.2, o.2.Fits C) : InRange C (s.put p r) := by
  constructor
  · intro a
    rw [put_node]
    split
    · exact hnode
    · exact (h.node a).mono hBC
  · intro a b m hm
    rw [put_chan] at hm
    split at hm
    · rcases List.mem_append.mp hm with hm | hm
      · exact (h.chan a b m hm).mono hBC
      · exact houts _ (mem_select.mp hm)
    · exact (h.chan a b m hm).mono hBC

theorem InRange.take (h : InRange B s) {q : Int} {i : Nat} : InRange B (s.take q p i) := by
  refine ⟨h.node, ?_⟩
  intro a b m hm
  rw [take_chan] at hm
  split at hm
  · exact h.chan a b m (List.mem_of_mem_eraseIdx hm)
  · exact h.chan a b m hm

/-- A node that executes a statement of its client thread stays in range. -/
theorem InRange.requester (h : InRange B s) (hidle : (s.node p).idle = false)
    (hwrite : (s.node p).trans.type.isWrite = true) :
    InRange B (s.put p ((s.node p).requester (net.layers p) p)) := by
  refine h.put (Nat.le_refl B) ?_ (CoreNode.fits_requester (h.node p) fun _ => hwrite)
  have hpc : (s.node p).mutex.pc ≠ .idle := by simpa [CoreNode.idle] using hidle
  unfold CoreNode.requester
  split
  · rw [CoreNode.critical_frame.1]
    exact h.node p
  · exact (h.node p).requester hpc

/-- A message of the mutex moves the range on by one, any other leaves it alone. -/
theorem InRange.handle (h : InRange B s) (net : Mesh) {q : Int} {i : Nat} {m : Msg} (hqp : q ≠ p)
    (hm : (s.chan q p)[i]? = some m) (hkind : m.kind?.isSome = true) :
    InRange (B + m.kind?.elim 0 stampedFare)
      ((s.take q p i).put p ((s.node p).handleMsg (net.layers p) p m.value q m.tag)) := by
  have hfits : m.Fits B := h.chan q p m (List.mem_of_getElem? hm)
  have hle : B ≤ B + m.kind?.elim 0 stampedFare := Nat.le_add_right _ _
  -- a message that goes to the mutex carries a clock value
  have hmutex : m.isMutex = true →
      ((s.node p).mutex.handle p m.value q m.tag).1.Within (B + m.kind?.elim 0 stampedFare) := by
    intro hmutex
    have hstamped : m.stamped = true ∧ m.kind?.elim 0 stampedFare = 1 := by
      obtain ⟨tag, v⟩ := m
      cases tag <;> simp_all [Msg.isMutex, Msg.kind?, Msg.stamped, stampedFare]
    unfold Msg.Fits at hfits
    rw [if_pos hstamped.1] at hfits
    rw [hstamped.2]
    exact (h.node p).handle hqp hfits
  refine h.take.put hle ?_ (CoreNode.fits_handleMsg (hfits.mono hle) hmutex)
  have hhandled := CoreNode.handleMsg_handled (net.layers p) p (s.node p) m q
  generalize (s.node p).handleMsg (net.layers p) p m.value q m.tag = r at hhandled
  cases hhandled with
  | ready _ _ | read _ _ _ => exact (h.node p).mono hle
  | write d _ _ =>
    rw [CoreNode.handleWrite_mutex]
    exact (h.node p).mono hle
  | mutex _ _ hm => exact hmutex hm

end

/-- No clock has been advanced more often than writes have been submitted and messages of the mutex
    handled. -/
theorem inRange {net : Mesh} {G : Guard State Label} (hclients : ∀ s l, G s l → clients s l) {s : State}
    {k : Carried} (hy : Reachable (trafficSystem net) (Guard.past G) (s, k)) :
    InRange (1 + k.submitted.length + k.spent stampedFare) s := by
  refine Reachable.invariant
    (I := fun y => InRange (1 + y.2.submitted.length + y.2.spent stampedFare) y.1) ?_ ?_ hy
  · rintro ⟨s, k⟩ ⟨rfl, rfl⟩
    exact ⟨fun p => MutexNode.within_init p, by simp [init]⟩
  · rintro ⟨s, k⟩ l ⟨t, k'⟩ hr ih hg hst
    have hrec := onRecord hclients hr
    obtain ⟨hst, rfl⟩ := withHistory_step.mp hst
    simp only [Carried.spent, weigh_append, List.length_append] at hst ih ⊢
    cases l with
    | submit p d =>
      obtain ⟨-, hidle, rfl⟩ := step_submit hst
      have hpc : (s.node p).mutex.pc = .idle := by simpa [CoreNode.idle] using hidle
      simp only [submitting, handling, weigh_nil, Nat.add_zero]
      unfold CoreNode.executeTransaction
      by_cases hd : d.type = .read
      · rw [if_pos hd, if_pos hd]
        exact ih.put (Nat.le_refl _) (ih.node p) (by simp)
      · rw [if_neg hd, if_neg hd]
        have htick := (ih.node p).tick (net.layers p CORE_LAYER) p hpc
        refine ih.put ?_ (htick.mono ?_) (by simp) <;> rw [List.length_singleton] <;> omega
    | requester p =>
      obtain ⟨-, hidle, rfl⟩ := step_requester hst
      exact ih.requester hidle (trans_isWrite hclients hr.forget p hidle)
    | handle p q i =>
      obtain ⟨hp, hq, m, hm, rfl⟩ := step_handle hst
      have hcore := (net.mem_peers hp).mp hq
      have hkind := hrec.chan q hcore.1 p hp m (List.mem_of_getElem? hm)
      have hnext := ih.handle net hcore.2 hm hkind
      simpa [submitting, handling, hm, Fare.out_add_back, Nat.add_assoc] using hnext
    | drain p b =>
      obtain ⟨-, -, rfl⟩ := step_drain net.layers hst
      exact ih.take

/-- In a layer of `n` nodes no clock, no entry of a queue, no local variable of `requestCS` and no clock value
    in a message passes `1 + (3 (n - 1) + 1) w` after `w` writes, whatever the order of delivery; and as long
    as that is below `2 ^ 31`, every value on a connection is an `int`. -/
theorem no_overflow (net : Mesh) (s : State) (k : Carried)
    (hy : Reachable (trafficSystem net) (Guard.past clients) (s, k)) :
    InRange (1 + (3 * (net.size - 1) + 1) * k.submitted.length) s ∧
    (1 + (3 * (net.size - 1) + 1) * k.submitted.length < 2 ^ 31 →
      ∀ p q, ∀ m ∈ s.chan p q, (Int32.ofInt m.value).toInt = m.value) := by
  have hclients : ∀ s l, clients s l → clients s l := fun _ _ h => h
  have hspent := spent_le hclients stampedFare hy
  have htotal : stampedFare.total = 3 := rfl
  have hle : 1 + k.submitted.length + k.spent stampedFare ≤
      1 + (3 * (net.size - 1) + 1) * k.submitted.length := by
    rw [htotal, ← Nat.mul_assoc] at hspent
    rw [Nat.add_mul, Nat.one_mul]
    omega
  have hrange := inRange hclients hy
  have hin : InRange (1 + (3 * (net.size - 1) + 1) * k.submitted.length) s :=
    ⟨fun p => (hrange.node p).mono hle, fun p q m hm => (hrange.chan p q m hm).mono hle⟩
  refine ⟨hin, ?_⟩
  intro hsmall p q m hm
  exact (hin.chan p q m hm).toInt hsmall

/-- Two nodes after one write: no clock has passed `5`. -/
theorem no_overflow_settledRun :
    ∃ s k, Reachable (trafficSystem Mesh.two) (Guard.past clients) (s, k) ∧ InRange 5 s := by
  obtain ⟨⟨s, k⟩, -, hs, hP⟩ := Reachable.of_exec (trafficSystem Mesh.two) (Guard.past clients)
    (init, ⟨[], []⟩) settledRun (fun y => y.2.submitted.length == 1) ⟨rfl, rfl⟩ (by decide)
  have hone : k.submitted.length = 1 := by simpa using hP
  have hrange := (no_overflow Mesh.two s k hs).1
  rw [hone] at hrange
  exact ⟨s, k, hs, hrange⟩

end Core
end Epidemica
