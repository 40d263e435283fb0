import Epidemica.Core.Ready
import Epidemica.Mutex.Invariants

/-!
# `Core.Projection` — the mutexes inside the core layer

Forget everything but the mutex of each node and the messages for it, and a run of the core layer is a
run of the mutexes: writes, `READY`s and `SET`s are invisible, and whatever the mutex does it does under
the same conditions. Every invariant of `Mutex` thus holds in the core layer (`mutexSim`).
-/

namespace Epidemica
namespace Core

open Network Transition

/-- What the mutexes see of a state. -/
def mutexes (net : Mesh) (s : State) : Mutex.State where
  node p := (s.node p).mutex
  chan p q := if p ∈ net.cores ∧ q ∈ net.cores then (s.chan p q).filter Msg.isMutex else []

/-- Every mutex message that is handled meets `Ok`. -/
def handlingMutex (Ok : Mutex.Handling) : Guard State Label
  | s, .handle p q i =>
    ∀ m, (s.chan q p)[i]? = some m → m.isMutex = true → Ok p (s.node p).mutex q m
  | _, _ => True

theorem handlingMutex_any {G : Guard State Label} :
    ∀ s l, G s l → handlingMutex Mutex.anyMessage s l := by
  intro s l _
  cases l <;> simp [handlingMutex, Mutex.anyMessage]

/-! ## Where the mutex sends to -/

section
variable {peers todo : List Int} {me : Int} {n : MutexNode}

/-- A broadcast in progress is on its way to peers only. -/
theorem requester_todo (hn : n.pc.todo ⊆ peers) : (n.requester peers me).1.pc.todo ⊆ peers := by
  obtain ⟨m, pc⟩ := n
  rcases pc with _ | _ | _ | ⟨_, _ | _⟩ | _ | _ | _ | ⟨_, _, _ | _⟩ <;>
    simp only [MutexNode.requester] <;> (try split) <;> simp_all [Pc.todo]

/-- So is everything the thread sends. -/
theorem requester_dest (hn : n.pc.todo ⊆ peers) : ∀ o ∈ (n.requester peers me).2, o.1 ∈ peers := by
  obtain ⟨m, pc⟩ := n
  rcases pc with _ | _ | _ | ⟨_, _ | _⟩ | _ | _ | _ | ⟨_, _, _ | _⟩ <;>
    simp only [MutexNode.requester] <;> (try split) <;> simp_all [Pc.todo]

end

/-- Every broadcast in progress is on its way within its own layer. -/
structure DestInv (net : Mesh) (p : Int) (n : CoreNode) : Prop where
  mutex : n.mutex.pc.todo ⊆ net.peers p
  set : ∀ v todo, n.cs = .sendSet v todo → todo ⊆ net.layers p LAYER_ONE

theorem DestInv.requester {net : Mesh} {p : Int} {n : CoreNode} (h : DestInv net p n) :
    DestInv net p (n.requester (net.layers p) p).1 := by
  obtain ⟨hmutex, hset⟩ := h
  by_cases hcs : n.mutex.pc.isInCS = true ∧ n.cs ≠ .done
  · unfold CoreNode.requester
    rw [if_pos hcs]
    refine ⟨by rw [CoreNode.critical_frame.1]; exact hmutex, ?_⟩
    obtain ⟨m, cs, tr, d, wc, fin⟩ := n
    intro v todo hv
    rcases cs with ⟨_ | _⟩ | _ | _ | _ | _ | ⟨u, _ | ⟨b, rest⟩⟩ | _ | _ | _ | _ <;>
      simp only [CoreNode.critical] at hv
    case testCount => split at hv <;> simp at hv
    case readVersion =>
      simp only [CsPc.sendSet.injEq] at hv
      rw [← hv.2]
      intro _ hb
      exact hb
    case sendSet.cons =>
      simp only [CsPc.sendSet.injEq] at hv
      rw [← hv.2]
      intro c hc
      exact hset u _ rfl (List.mem_cons_of_mem _ hc)
    case waitReady => split at hv <;> simp at hv
    all_goals simp at hv
  · unfold CoreNode.requester
    rw [if_neg hcs]
    refine ⟨requester_todo hmutex, ?_⟩
    intro v todo hv
    simp only at hv
    split at hv
    · exact absurd hv (by simp)
    · exact hset v todo hv

theorem destInv {net : Mesh} {G : Guard State Label} {s : State} (hs : Reachable (system net) G s)
    (p : Int) : DestInv net p (s.node p) := by
  refine Reachable.invariant (I := fun s => DestInv net p (s.node p)) ?_ ?_ hs
  · rintro s rfl
    constructor <;> simp [init, CoreNode.init, MutexNode.init, Pc.todo]
  · intro s l t _ ih hg hst
    cases l with
    | submit a d =>
      obtain ⟨-, -, rfl⟩ := step_submit hst
      by_cases hpa : p = a
      · subst hpa
        rw [put_node, if_pos rfl, CoreNode.executeTransaction]
        split
        · exact ⟨ih.mutex, ih.set⟩
        · exact ⟨requester_todo ih.mutex, ih.set⟩
      · rw [put_node, if_neg hpa]
        exact ih
    | requester a =>
      obtain ⟨-, -, rfl⟩ := step_requester hst
      by_cases hpa : p = a
      · subst hpa
        rw [put_node, if_pos rfl]
        exact ih.requester
      · rw [put_node, if_neg hpa]
        exact ih
    | handle a q i =>
      obtain ⟨-, -, m, -, rfl⟩ := step_handle hst
      by_cases hpa : p = a
      · subst hpa
        obtain ⟨-, -, hcs, hpc⟩ :=
          CoreNode.handleMsg_pending? (L := net.layers p) (n := s.node p) p m q
        rw [put_node, if_pos rfl]
        exact ⟨by rw [hpc]; exact ih.mutex, by rw [hcs]; exact ih.set⟩
      · rw [put_node, if_neg hpa]
        exact ih
    | drain a b =>
      obtain ⟨-, -, rfl⟩ := step_drain net.layers hst
      exact ih

/-- A client thread sends to its peers and to the layer below, and nowhere else. -/
theorem DestInv.dest {net : Mesh} {p : Int} {n : CoreNode} (h : DestInv net p n)
    (hsend : ∀ todo, n.pending? = some todo → todo ⊆ net.peers p) :
    ∀ o ∈ (n.requester (net.layers p) p).2, o.1 ∈ net.peers p ∨ o.1 ∈ net.layers p LAYER_ONE := by
  intro o ho
  by_cases hcs : n.mutex.pc.isInCS = true ∧ n.cs ≠ .done
  · unfold CoreNode.requester at ho
    rw [if_pos hcs] at ho
    obtain ⟨-, hset⟩ := h
    have hin := hcs.1
    obtain ⟨m, cs, tr, d, wc, fin⟩ := n
    rcases cs with ⟨_ | ⟨x, todo⟩⟩ | _ | _ | _ | _ | ⟨u, _ | ⟨b, rest⟩⟩ | _ | _ | _ | _ <;>
      simp only [CoreNode.critical] at ho
    case sendWrite.cons =>
      rw [List.mem_singleton.mp ho]
      exact Or.inl (hsend (x :: todo) (by simpa [CoreNode.pending?] using hin) List.mem_cons_self)
    case sendSet.cons =>
      rw [List.mem_singleton.mp ho]
      exact Or.inr (hset u _ rfl List.mem_cons_self)
    case waitReady => split at ho <;> simp at ho
    all_goals simp at ho
  · unfold CoreNode.requester at ho
    rw [if_neg hcs] at ho
    exact Or.inl (requester_dest h.mutex o ho)

/-- A handler answers the sender, and sends to the layer below. -/
theorem handleMsg_dest {L : Layers} {me src : Int} {n : CoreNode} {m : Msg} :
    ∀ o ∈ (n.handleMsg L me m.value src m.tag).2, o.1 = src ∨ o.1 ∈ L LAYER_ONE := by
  intro o ho
  rcases CoreNode.mem_handleMsg ho with ⟨b, hb, v, rfl⟩ | ⟨-, rfl⟩ | ⟨-, rfl⟩
  · exact Or.inr hb
  · exact Or.inl rfl
  · exact Or.inl rfl

/-- Outside the core layer, only the nodes that hang below `p` hear of `p`. -/
theorem chan_below {net : Mesh} {G : Guard State Label} (hclients : ∀ s l, G s l → clients s l)
    {s : State} (hs : Reachable (system net) G s) {p b : Int} (hb : b ∉ net.cores)
    (hnot : p ∈ net.cores → b ∉ net.layers p LAYER_ONE) : s.chan p b = [] := by
  have hcore : ∀ q ∈ net.cores, ∀ x, x ∈ net.peers q → x ≠ b := by
    intro q hq x hx hxb
    exact hb (hxb ▸ ((net.mem_peers hq).mp hx).1)
  refine Reachable.invariant (I := fun s => s.chan p b = []) ?_ ?_ hs
  · rintro s rfl
    rfl
  · intro s l t hr ih hg hst
    cases l with
    | submit a d =>
      obtain ⟨-, -, rfl⟩ := step_submit hst
      simpa using ih
    | requester a =>
      obtain ⟨ha, -, rfl⟩ := step_requester hst
      by_cases hpa : p = a
      · subst hpa
        have hnone : select b ((s.node p).requester (net.layers p) p).2 = [] := by
          rw [List.eq_nil_iff_forall_not_mem]
          intro m hm
          -- the thread sends to peers and to the layer below, and `b` is neither
          have hdest := (destInv hr p).dest (fun todo hpend =>
            ((readyInv hclients ha hr).busy todo hpend).2.1) _ (mem_select.mp hm)
          exact hdest.elim (fun hx => hcore p ha b hx rfl) (hnot ha)
        rw [put_chan, if_pos rfl, hnone, List.append_nil]
        exact ih
      · rw [put_chan, if_neg hpa]
        exact ih
    | handle a q i =>
      obtain ⟨ha, hq, m, hm, rfl⟩ := step_handle hst
      have htake : (s.take q a i).chan p b = [] := by
        have hba : b ≠ a := (ne_of_mem_of_not_mem ha hb).symm
        rw [take_chan, if_neg fun hat => hba hat.2]
        exact ih
      by_cases hpa : p = a
      · subst hpa
        have hnone : select b ((s.node p).handleMsg (net.layers p) p m.value q m.tag).2 = [] := by
          rw [List.eq_nil_iff_forall_not_mem]
          intro x hx
          exact (handleMsg_dest _ (mem_select.mp hx)).elim
            (fun hbq => hcore p ha q hq hbq.symm) (hnot ha)
        rw [put_chan, if_pos rfl, hnone, List.append_nil]
        exact htake
      · rw [put_chan, if_neg hpa]
        exact htake
    | drain a c =>
      obtain ⟨-, -, rfl⟩ := step_drain net.layers hst
      rw [take_chan]
      split
      · rw [ih]
        rfl
      · exact ih

/-! ## The simulation -/

section
variable {net : Mesh} {s : State} {p q : Int}

/-- A step of `p` is seen as the step of its mutex. -/
theorem mutexes_put {r : CoreNode × Outs} {r' : MutexNode × Outs} (hp : p ∈ net.cores)
    (hmutex : r.1.mutex = r'.1) (hin : ∀ b ∈ net.cores, (select b r.2).filter Msg.isMutex = select b r'.2)
    (hoff : ∀ o ∈ r'.2, o.1 ∈ net.cores) :
    mutexes net (s.put p r) = (mutexes net s).put p r' := by
  ext1
  · funext a
    by_cases ha : a = p <;> simp [mutexes, ha, hmutex]
  · funext a b
    rw [Mutex.put_chan]
    simp only [mutexes, put_chan]
    by_cases hb : b ∈ net.cores
    · by_cases ha : a = p
      · subst ha
        simp [hp, hb, hin b hb]
      · simp [ha]
    · have hnone : select b r'.2 = [] := by
        rw [List.eq_nil_iff_forall_not_mem]
        intro m hm
        exact hb (hoff _ (mem_select.mp hm))
      simp [hb, hnone]

/-- A step of `p` that does not touch its mutex is not seen. -/
theorem mutexes_put_same {r : CoreNode × Outs} (hmutex : r.1.mutex = (s.node p).mutex)
    (hin : ∀ b ∈ net.cores, ∀ m ∈ select b r.2, m.isMutex = false) :
    mutexes net (s.put p r) = mutexes net s := by
  ext1
  · funext a
    by_cases ha : a = p <;> simp [mutexes, ha, hmutex]
  · funext a b
    simp only [mutexes, put_chan]
    split
    · split
      · rename_i hab ha
        have hnil : (select b r.2).filter Msg.isMutex = [] := by
          rw [List.filter_eq_nil_iff]
          intro m hm
          rw [hin b hab.2 m hm]
          exact Bool.false_ne_true
        rw [List.filter_append, hnil, List.append_nil]
      · rfl
    · rfl

/-- Taking a message that is not for the mutex is not seen. -/
theorem mutexes_take_other {m : Msg} {rest : List Msg} (hc : s.chan q p = m :: rest)
    (hm : m.isMutex = false) : mutexes net (s.take q p 0) = mutexes net s := by
  ext1
  · rfl
  · funext a b
    simp only [mutexes, take_chan]
    by_cases hab : a = q ∧ b = p
    · obtain ⟨rfl, rfl⟩ := hab
      simp [hc, hm]
    · simp [hab]

/-- Taking a message for the mutex is seen. -/
theorem mutexes_take_mutex {m : Msg} {rest : List Msg} (hp : p ∈ net.cores) (hq : q ∈ net.cores)
    (hc : s.chan q p = m :: rest) (hm : m.isMutex = true) :
    (mutexes net s).chan q p = m :: rest.filter Msg.isMutex ∧
      mutexes net (s.take q p 0) =
        { mutexes net s with chan := receive (mutexes net s).chan q p 0 } := by
  refine ⟨by simp [mutexes, hp, hq, hc, hm], ?_⟩
  ext1
  · rfl
  · funext a b
    simp only [mutexes, take_chan, receive_apply]
    by_cases hab : a = q ∧ b = p
    · obtain ⟨rfl, rfl⟩ := hab
      simp [hp, hq, hc, hm]
    · simp [hab]

/-- What a statement in the critical section sends is not for a mutex of the core layer. -/
theorem critical_not_mutex (hp : p ∈ net.cores) (hdest : DestInv net p (s.node p))
    (hwrite : (s.node p).trans.type.isWrite = true) {b : Int} (hb : b ∈ net.cores) :
    ∀ m ∈ select b ((s.node p).critical (net.layers p)).2, m.isMutex = false := by
  intro m hm
  have hm := mem_select.mp hm
  have hset := hdest.set
  generalize s.node p = n at hset hwrite hm
  obtain ⟨mu, cs, tr, d, wc, fin⟩ := n
  rcases cs with ⟨_ | _⟩ | _ | _ | _ | _ | ⟨u, _ | ⟨c, rest⟩⟩ | _ | _ | _ | _ <;>
    simp only [CoreNode.critical] at hm
  case sendWrite.cons =>
    obtain ⟨-, rfl⟩ := Prod.mk.inj (List.mem_singleton.mp hm)
    cases htype : tr.type <;>
      simp_all [TransactionData.msg, TransactionType.tag, Msg.isMutex, TransactionType.isWrite]
  case sendSet.cons =>
    -- a `SET` goes to the layer below
    obtain ⟨rfl, -⟩ := Prod.mk.inj (List.mem_singleton.mp hm)
    exact absurd hb (net.below p hp b (hset u _ rfl List.mem_cons_self))
  case waitReady => split at hm <;> simp at hm
  all_goals simp at hm

/-- Handling anything else touches no mutex, and sends nothing to one. -/
theorem handleMsg_not_mutex (hp : p ∈ net.cores) {m : Msg} (hm : m.isMutex = false) :
    ((s.node p).handleMsg (net.layers p) p m.value q m.tag).1.mutex = (s.node p).mutex ∧
      ∀ b ∈ net.cores, ∀ o ∈ select b ((s.node p).handleMsg (net.layers p) p m.value q m.tag).2,
        o.isMutex = false := by
  constructor
  · have hhandled := CoreNode.handleMsg_handled (net.layers p) p (s.node p) m q
    generalize (s.node p).handleMsg (net.layers p) p m.value q m.tag = r at hhandled
    cases hhandled with
    | ready _ _ | read _ _ _ => rfl
    | mutex _ _ hyes => exact absurd (hm.symm.trans hyes) (by simp)
    | write d _ _ => simp
  · intro b hb o ho
    rcases CoreNode.mem_handleMsg (mem_select.mp ho) with ⟨c, hc, v, heq⟩ | ⟨-, heq⟩ | ⟨hyes, -⟩
    · -- a `SET` goes to the layer below
      obtain ⟨rfl, -⟩ := Prod.mk.inj heq
      exact absurd hb (net.below p hp b hc)
    · obtain ⟨-, rfl⟩ := Prod.mk.inj heq
      rfl
    · exact absurd (hm.symm.trans hyes) (by simp)

end

/-- Handling a message for the mutex is handling it there. -/
theorem handleMsg_mutex {L : Layers} {me src : Int} {n : CoreNode} {m : Msg} (hm : m.isMutex = true) :
    n.handleMsg L me m.value src m.tag =
      ({ n with mutex := (n.mutex.handle me m.value src m.tag).1 },
        (n.mutex.handle me m.value src m.tag).2) := by
  obtain ⟨tag, v⟩ := m
  cases tag <;> first | rfl | exact absurd hm (by simp [Msg.isMutex])

section
variable {net : Mesh} {G : Guard State Label} {Ok : Mutex.Handling} {s t : State} {p q : Int}

/-- The call of `ExecuteTransaction`: the first statement of `requestCS`, or a read. -/
theorem mutexes_submit {d : TransactionData} (hst : (system net).step s (.submit p d) = some t) :
    Run (Mutex.system net) (Mutex.handling Ok) (mutexes net s) (mutexes net t) := by
  obtain ⟨hp, hidle, rfl⟩ := step_submit hst
  have hpc : (s.node p).mutex.pc = .idle := by simpa [CoreNode.idle] using hidle
  unfold CoreNode.executeTransaction
  split
  · rw [mutexes_put_same rfl (fun b _ m hm => absurd hm (by simp))]
    exact Run.refl
  · have hput : mutexes net (s.put p ({ s.node p with
        trans := d, mutex := ((s.node p).mutex.requester (net.peers p) p).1 }, [])) =
        (mutexes net s).put p ((s.node p).mutex.requester (net.peers p) p) :=
      mutexes_put hp rfl (fun b _ => by simp [MutexNode.requester, hpc])
        (by simp [MutexNode.requester, hpc])
    apply Run.single (l := .requester p) trivial
    show Mutex.step net (mutexes net s) (.requester p) = _
    rw [Mutex.step, if_pos hp]
    exact congrArg some hput.symm

/-- A statement of the client thread: one of the mutex, or one in the critical section. -/
theorem mutexes_requester (hdest : DestInv net p (s.node p))
    (hwrite : (s.node p).idle = false → (s.node p).trans.type.isWrite = true)
    (hst : (system net).step s (.requester p) = some t) :
    Run (Mutex.system net) (Mutex.handling Ok) (mutexes net s) (mutexes net t) := by
  obtain ⟨hp, hidle, rfl⟩ := step_requester hst
  by_cases hcs : (s.node p).mutex.pc.isInCS = true ∧ (s.node p).cs ≠ .done
  · unfold CoreNode.requester
    rw [if_pos hcs]
    rw [mutexes_put_same CoreNode.critical_frame.1 fun b hb =>
      critical_not_mutex hp hdest (hwrite hidle) hb]
    exact Run.refl
  · unfold CoreNode.requester
    rw [if_neg hcs]
    apply Run.single (l := .requester p) trivial
    show Mutex.step net (mutexes net s) (.requester p) = _
    rw [Mutex.step, if_pos hp]
    refine congrArg some (mutexes_put hp rfl ?_ ?_).symm
    · intro b hb
      exact List.filter_eq_self.mpr fun m hm => MutexNode.requester_isMutex _ (mem_select.mp hm)
    · intro o ho
      exact ((net.mem_peers hp).mp (requester_dest hdest.mutex o ho)).1

/-- The oldest message is handled: by the mutex, or it is a write or a `READY`. -/
theorem mutexes_handle (hok : handlingMutex Ok s (.handle p q 0))
    (hst : (system net).step s (.handle p q 0) = some t) :
    Run (Mutex.system net) (Mutex.handling Ok) (mutexes net s) (mutexes net t) := by
  obtain ⟨hp, hq, m, hm, rfl⟩ := step_handle hst
  have hqc : q ∈ net.cores := ((net.mem_peers hp).mp hq).1
  obtain ⟨rest, hc⟩ : ∃ rest, s.chan q p = m :: rest := by
    cases hchan : s.chan q p with
    | nil => exact absurd hm (by simp [hchan])
    | cons x rest =>
      rw [hchan] at hm
      exact ⟨rest, by rw [Option.some.inj hm]⟩
  by_cases hyes : m.isMutex = true
  · obtain ⟨hhead, htake⟩ := mutexes_take_mutex hp hqc hc hyes
    apply Run.single (l := .handle p q)
    · intro x hx
      rw [hhead] at hx
      obtain rfl : m = x := Option.some.inj hx
      exact hok m hm hyes
    · show Mutex.step net (mutexes net s) (.handle p q) = _
      rw [Mutex.step, if_pos ⟨hp, hq⟩, hhead]
      refine congrArg some ?_
      rw [handleMsg_mutex hyes, ← htake]
      refine (mutexes_put hp rfl ?_ ?_).symm
      · intro b hb
        exact List.filter_eq_self.mpr fun x hx =>
          (MutexNode.handle_outs _ (mem_select.mp hx)).2
      · intro o ho
        rw [(MutexNode.handle_outs _ ho).1]
        exact hqc
  · have hno : m.isMutex = false := by simpa using hyes
    obtain ⟨hsame, hnot⟩ := handleMsg_not_mutex (s := s) (q := q) hp hno
    rw [mutexes_put_same (s := s.take q p 0) hsame hnot, mutexes_take_other hc hno]
    exact Run.refl

/-- The mutexes do not see what is received outside the core layer. -/
theorem mutexes_drain {b : Int} (hst : (system net).step s (.drain p b) = some t) :
    mutexes net t = mutexes net s := by
  obtain ⟨hb, -, rfl⟩ := step_drain net.layers hst
  ext1
  · rfl
  · funext a c
    by_cases hac : a = p ∧ c = b
    · obtain ⟨rfl, rfl⟩ := hac
      simp [mutexes, hb]
    · simp [mutexes, hac]

/-- Every step of the core layer is a step of the mutexes or not seen by them. -/
theorem mutexes_step (hclients : ∀ s l, G s l → clients s l) (hfifo : ∀ s l, G s l → fifo s l)
    (hok : ∀ s l, G s l → handlingMutex Ok s l) {l : Label}
    (hs : Reachable (system net) G s) (hg : G s l) (hst : (system net).step s l = some t) :
    Run (Mutex.system net) (Mutex.handling Ok) (mutexes net s) (mutexes net t) := by
  cases l with
  | submit p d => exact mutexes_submit hst
  | requester p => exact mutexes_requester (destInv hs p) (trans_isWrite hclients hs p) hst
  | handle p q i =>
    obtain rfl : i = 0 := hfifo _ _ hg
    exact mutexes_handle (hok _ _ hg) hst
  | drain p b =>
    rw [mutexes_drain hst]
    exact Run.refl

/-- The core layer simulates its mutexes. -/
def mutexSim (hclients : ∀ s l, G s l → clients s l) (hfifo : ∀ s l, G s l → fifo s l)
    (hok : ∀ s l, G s l → handlingMutex Ok s l) :
    Simulation (system net) G (Mutex.system net) (Mutex.handling Ok) where
  abs := mutexes net
  init s hs := by
    obtain rfl : s = init := hs
    show mutexes net init = Mutex.init
    ext1
    · rfl
    · funext a b
      simp [mutexes, init, Mutex.init]
  step _ _ _ hr hg hst := mutexes_step hclients hfifo hok hr hg hst

end

end Core
end Epidemica
