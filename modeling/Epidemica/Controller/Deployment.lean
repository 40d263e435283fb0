import Epidemica.Controller.ReadOnly
import Epidemica.Controller.Replay
import Epidemica.Core.Reads
import Epidemica.Propagation.Convergence

/-!
# `Controller.Deployment` — from the files to all layers

The whole program once its nodes are connected: the thread of the file watcher, which takes one event after
another and makes the calls of `FileModifiedCallback`, and beside it the handlers, client services and `Run`
threads of all nodes, with every message between them. The store of `Controller.FileModified` is its
specification:

- whenever the thread is between two calls, the core nodes hold what the calls made so far give, one after
  another (`between_calls`);
- once no file is modified any more, all nodes of all layers come to hold it (`files_reach_all_layers`).

The events are those that `handleFileAction` lets through, and the nodes are connected from the first state on:
what happens before that is the subject of `Controller.StartUp` and `Controller.AtWork`.
-/

namespace Epidemica
namespace Deployment

open Network Transition Filter Controller

/-- The nodes with what is in flight, and the thread of the watcher: `calls` is left of the callback it is
    in, and `caller` is the core node whose `ExecuteTransaction` it was in last. -/
structure State where
  net : Propagation.State
  calls : List Call
  caller : Option Int

/-- The steps of the program. An event is one that `handleFileAction` lets through. -/
inductive Label where
  /-- The watcher calls `FileModifiedCallback`; `file` is `none` if the file cannot be opened. -/
  | modified (filename : List Char) (uninit : Int × Bool) (file : Option (List Char))
  /-- The callback makes its next call. -/
  | call
  /-- Any other step of the nodes. -/
  | net (l : Propagation.Label)

/-- All nodes are connected, and no event has been handled. -/
def init : State := ⟨Propagation.init, [], none⟩

/-- The last call has returned. -/
def State.returned (s : State) : Bool := s.caller.all fun p => (s.net.core.node p).idle

/-- `ExecuteTransaction` is called. On a core node this starts it, below it is executed at once. -/
def perform (s : Propagation.State) : Call → Option Propagation.State
  | (.core i, d) => Propagation.step Tree.controller s (.core (.submit (Node.core i).id d))
  | (.one j, d) =>
    let n := s.one (Node.one j).id
    some { s with
      one := Function.update s.one (Node.one j).id { n with transaction := n.transaction.execute d } }
  | (.two k, d) =>
    let n := s.two (Node.two k).id
    some { s with
      two := Function.update s.two (Node.two k).id { n with transaction := n.transaction.execute d } }

/-- The node whose client thread carries out a call: a core node, since below the core layer a call returns at
    once. -/
def callerOf : Call → Option Int
  | (.core i, _) => some (Node.core i).id
  | _ => none

/-- A step of the program. The thread of the watcher handles an event when the callback of the one before has
    returned, and makes a call when the call before has; the nodes take their steps in between. -/
def step (s : State) : Label → Option State
  | .modified filename uninit file =>
    if s.calls = [] ∧ s.returned then
      some { s with calls := fileModifiedCallback filename (readTransactions uninit file) }
    else none
  | .call =>
    match s.calls with
    | [] => none
    | c :: calls =>
      if s.returned then (perform s.net c).map fun net => ⟨net, calls, callerOf c⟩ else none
  | .net (.core (.submit _ _)) => none
  | .net l => (Propagation.step Tree.controller s.net l).map fun net => { s with net := net }

/-- The program, from connected nodes at version `0`. -/
def system : System State Label := ⟨fun s => s = init, step⟩

/-! ## History -/

/-- The step of the nodes that a step contains. -/
def toNet (s : State) : Label → Option Propagation.Label
  | .modified _ _ _ => none
  | .call =>
    match s.calls with
    | (.core i, d) :: _ => some (.core (.submit (Node.core i).id d))
    | _ => none
  | .net l => some l

/-- `asked` are the calls of all callbacks, in order, and `made` those that have been made. -/
structure Hist where
  net : Propagation.Hist
  asked : List Call
  made : List Call

/-- Nothing has happened. -/
def Hist.empty : Hist := ⟨Propagation.Hist.empty, [], []⟩

/-- What a step adds to the history. -/
def record (s : State) (l : Label) (h : Hist) : Hist where
  net := match toNet s l with
    | some k => Propagation.record Tree.controller s.net k h.net
    | none => h.net
  asked := match l with
    | .modified filename uninit file =>
      h.asked ++ fileModifiedCallback filename (readTransactions uninit file)
    | _ => h.asked
  made := match l with
    | .call => h.made ++ s.calls.head?.toList
    | _ => h.made

/-- The program with its history. -/
def historySystem : System (State × Hist) Label := system.withHistory Hist.empty record

/-- Connections deliver in the order of sending. -/
def fifo : Guard State Label
  | s, .net (.core l) => Core.fifo s.net.core l
  | _, _ => True

/-- Read-only batches hold only reads. -/
def honest : Guard State Label
  | _, .modified _ uninit file =>
    (readTransactions uninit file).readOnly = true →
      ∀ d ∈ (readTransactions uninit file).transactions, d.type = .read
  | _, _ => True

instance : ∀ s l, Decidable (fifo s l)
  | s, .net (.core l) => inferInstanceAs (Decidable (Core.fifo s.net.core l))
  | _, .net (.handleOne _ _) | _, .net (.run _) | _, .net (.handleTwo _ _) => isTrue trivial
  | _, .modified _ _ _ | _, .call => isTrue trivial

instance : ∀ s l, Decidable (honest s l)
  | _, .modified _ uninit file => inferInstanceAs (Decidable ((readTransactions uninit file).readOnly = true →
      ∀ d ∈ (readTransactions uninit file).transactions, d.type = .read))
  | _, .call | _, .net _ => isTrue trivial

/-! ## Inversion -/

section
variable {s t : State}

theorem step_modified {filename : List Char} {uninit : Int × Bool} {file : Option (List Char)}
    (h : step s (.modified filename uninit file) = some t) : s.calls = [] ∧ s.returned = true ∧
      t = { s with calls := fileModifiedCallback filename (readTransactions uninit file) } := by
  simp only [step] at h
  split at h
  · rename_i hfree
    exact ⟨hfree.1, hfree.2, (Option.some.inj h).symm⟩
  · exact absurd h (by simp)

theorem step_call (h : step s .call = some t) : ∃ c calls net, s.calls = c :: calls ∧
    s.returned = true ∧ perform s.net c = some net ∧ t = ⟨net, calls, callerOf c⟩ := by
  simp only [step] at h
  split at h
  · exact absurd h (by simp)
  · rename_i c calls hcalls
    split at h
    · obtain ⟨net, hnet, rfl⟩ := Option.map_eq_some_iff.mp h
      exact ⟨c, calls, net, hcalls, ‹_›, hnet, rfl⟩
    · exact absurd h (by simp)

theorem step_net {l : Propagation.Label} (h : step s (.net l) = some t) :
    (∀ p d, l ≠ .core (.submit p d)) ∧
      ∃ net, Propagation.step Tree.controller s.net l = some net ∧ t = { s with net := net } := by
  unfold step at h
  split at h
  · exact absurd ‹Label.net l = .modified _ _ _› (by simp)
  · exact absurd ‹Label.net l = .call› (by simp)
  · exact absurd h (by simp)
  · rename_i l' hnot heq
    obtain rfl := Label.net.inj heq
    obtain ⟨net, hnet, rfl⟩ := Option.map_eq_some_iff.mp h
    exact ⟨fun p d hl => hnot p d (by rw [hl]), net, hnet, rfl⟩

/-- A call on a core node is submitted there, and any other leaves the core layer alone. -/
theorem perform_cases {n n' : Propagation.State} {c : Call} (h : perform n c = some n') :
    (∃ i, c.1 = .core i ∧
        Propagation.step Tree.controller n (.core (.submit (Node.core i).id c.2)) = some n') ∨
      ((∀ i, c.1 ≠ .core i) ∧ n'.core = n.core ∧ (c.2.type = .read → n' = n)) := by
  have hread : ∀ (tr : Transaction) (d : TransactionData), d.type = .read → tr.execute d = tr :=
    fun tr d hd => Transaction.execute_of_not_write tr (by simp [hd, TransactionType.isWrite]) (by simp [hd])
  obtain ⟨x, d⟩ := c
  cases x with
  | core i => exact Or.inl ⟨i, rfl, h⟩
  | one j =>
    obtain rfl := Option.some.inj h
    exact Or.inr ⟨by simp, rfl, fun hd => by simp [hread _ d hd]⟩
  | two k =>
    obtain rfl := Option.some.inj h
    exact Or.inr ⟨by simp, rfl, fun hd => by simp [hread _ d hd]⟩

end

/-! ## The watcher's thread -/

theorem id_mem (i : CoreName) : (Node.core i).id ∈ Tree.controller.mesh.cores := by
  cases i <;> decide

/-- The callback makes no call but with a transaction of its batch. -/
theorem mem_callback {filename : List Char} {batch : Transactions} {c : Call}
    (hc : c ∈ fileModifiedCallback filename batch) : c.2 ∈ batch.transactions := by
  unfold fileModifiedCallback at hc
  split at hc
  · split at hc
    · obtain ⟨d, hd, rfl⟩ := List.mem_map.mp hc
      exact hd
    · exact absurd hc (by simp)
  · split at hc
    · exact (mem_onLayer.mp hc).2
    · exact (mem_onLayer.mp hc).2
    · exact (mem_onLayer.mp hc).2
    · exact absurd hc (by simp)

/-- In a write batch it calls one core node. -/
theorem callback_core {filename : List Char} {batch : Transactions} (h : batch.readOnly = false) {c : Call}
    (hc : c ∈ fileModifiedCallback filename batch) : ∃ i, c.1 = .core i := by
  unfold fileModifiedCallback at hc
  rw [if_pos h] at hc
  split at hc
  · rename_i node htarget
    obtain ⟨d, -, rfl⟩ := List.mem_map.mp hc
    unfold target at htarget
    split at htarget
    · exact ⟨_, (Option.some.inj htarget).symm⟩
    · split at htarget
      · exact ⟨_, (Option.some.inj htarget).symm⟩
      · split at htarget
        · exact ⟨_, (Option.some.inj htarget).symm⟩
        · exact absurd htarget (by simp)
  · exact absurd hc (by simp)

/-- What holds of the watcher's thread. -/
structure WatcherInv (y : State × Hist) : Prop where
  /-- No other client thread is at work. -/
  busy : ∀ p ∈ Tree.controller.mesh.cores, (y.1.net.core.node p).idle = false → y.1.caller = some p
  caller : ∀ p ∈ y.1.caller, p ∈ Tree.controller.mesh.cores
  /-- Calls are made in order, each once. -/
  inOrder : y.2.made ++ y.1.calls = y.2.asked
  types : ∀ c ∈ y.2.asked, c.2.type.isWrite = true ∨ c.2.type = .read

theorem WatcherInv.idle {y : State × Hist} (h : WatcherInv y) (hreturned : y.1.returned = true) :
    ∀ p ∈ Tree.controller.mesh.cores, (y.1.net.core.node p).idle = true := by
  intro p hp
  by_contra hbusy
  have hcaller := h.busy p hp (by simpa using hbusy)
  unfold State.returned at hreturned
  rw [hcaller] at hreturned
  exact hbusy hreturned

section
variable {G : Guard State Label} {y : State × Hist}

/-- A step with its history. -/
theorem history_step {s t : State} {h k : Hist} {l : Label} (hst : historySystem.step (s, h) l = some (t, k)) :
    step s l = some t ∧ k = record s l h :=
  withHistory_step.mp hst

theorem watcherInv (hy : Reachable historySystem (Guard.past G) y) : WatcherInv y := by
  refine Reachable.invariant (I := WatcherInv) ?_ ?_ hy
  · rintro ⟨s, h⟩ ⟨rfl, rfl⟩
    refine ⟨fun p _ hbusy => absurd hbusy ?_, fun p hp => absurd hp (by simp [init]), rfl,
      fun c hc => absurd hc (by simp [Hist.empty])⟩
    simp [init, Propagation.init, Core.init, CoreNode.init, MutexNode.init, CoreNode.idle]
  · rintro ⟨s, h⟩ l ⟨t, k⟩ - hinv - hst
    replace hst := history_step hst
    obtain ⟨hst, rfl⟩ := hst
    cases l with
    | modified filename uninit file =>
      obtain ⟨hcalls, -, rfl⟩ := step_modified hst
      have horder : h.made ++ s.calls = h.asked := hinv.inOrder
      refine ⟨hinv.busy, hinv.caller, ?_, ?_⟩
      · simp only [record]
        rw [← horder, hcalls, List.append_nil]
      · intro c hc
        rcases List.mem_append.mp hc with hc | hc
        · exact hinv.types c hc
        · exact readTransactions_type (mem_callback hc)
    | call =>
      obtain ⟨c, calls, net, hcalls, hreturned, hperform, rfl⟩ := step_call hst
      have horder : h.made ++ s.calls = h.asked := hinv.inOrder
      refine ⟨?_, ?_, ?_, hinv.types⟩
      · intro p hp hbusy
        have hidle : (s.net.core.node p).idle = true := hinv.idle hreturned p hp
        rcases perform_cases hperform with ⟨i, hi, hsubmit⟩ | ⟨-, hcore, -⟩
        · obtain ⟨x, d⟩ := c
          obtain rfl : x = .core i := hi
          obtain ⟨-, core, hcore, rfl⟩ := Propagation.step_core hsubmit
          -- only the node that is called can be at work now
          by_cases hpi : p = (Node.core i).id
          · exact congrArg some hpi.symm
          · obtain ⟨-, -, rfl⟩ := Core.step_submit hcore
            have hbusy : ((s.net.core.put (Node.core i).id _).node p).idle = false := hbusy
            rw [Core.put_node, if_neg hpi, hidle] at hbusy
            exact absurd hbusy (by simp)
        · have hbusy : (net.core.node p).idle = false := hbusy
          rw [hcore, hidle] at hbusy
          exact absurd hbusy (by simp)
      · intro p hp
        obtain ⟨x, d⟩ := c
        cases x with
        | core i => exact Option.some.inj hp ▸ id_mem i
        | one j => exact absurd hp (by simp [callerOf])
        | two k => exact absurd hp (by simp [callerOf])
      · simp only [record, hcalls, List.head?_cons, Option.toList_some]
        rw [← horder, hcalls, List.append_assoc, List.singleton_append]
    | net l =>
      obtain ⟨hl, net, hnet, rfl⟩ := step_net hst
      refine ⟨?_, hinv.caller, hinv.inOrder, hinv.types⟩
      intro p hp hbusy
      apply hinv.busy p hp
      by_contra hidle
      have hidle : (s.net.core.node p).idle = true := by simpa using hidle
      have hbusy : (net.core.node p).idle = false := hbusy
      rcases Propagation.core_step hnet with ⟨m, hm, hcore⟩ | ⟨-, hcore⟩
      · have hstay := Core.idle_step Tree.controller.mesh hcore (fun d hmd => by
          subst hmd
          cases l with
          | core l => exact absurd (congrArg _ (Option.some.inj hm)) (hl p d)
          | _ => exact absurd hm (by simp [Propagation.Label.toCore])) hidle
        rw [hstay] at hbusy
        exact absurd hbusy (by simp)
      · rw [hcore, hidle] at hbusy
        exact absurd hbusy (by simp)

end

/-! ## The nodes inside -/

/-- The writes that calls make on core nodes, with the id of the node. -/
def coreWrites (calls : List Call) : List (Int × TransactionData) :=
  calls.filterMap fun c =>
    match c with
    | (.core i, d) => if d.type = .read then none else some ((Node.core i).id, d)
    | _ => none

section
variable {s t : State} {h k : Hist} {l : Label} {G : Guard State Label}

/-- A step of the program is a step of the nodes, submitted when all are idle if it submits, or leaves the
    nodes of the core layer alone; it leaves all alone if it makes no call below that layer but reads. -/
theorem net_cases (hinv : WatcherInv (s, h)) (hfifo : fifo s l) (hst : step s l = some t) :
    (∃ m, toNet s l = some m ∧ Propagation.step Tree.controller s.net m = some t.net ∧
        Propagation.onCore (Core.sequentialRuns Tree.controller.mesh) s.net m) ∨
      (toNet s l = none ∧ t.net.core = s.net.core ∧
        ((∀ c ∈ s.calls, (∃ i, c.1 = .core i) ∨ c.2.type = .read) → t.net = s.net)) := by
  cases l with
  | modified filename uninit file =>
    obtain ⟨-, -, rfl⟩ := step_modified hst
    exact Or.inr ⟨rfl, rfl, fun _ => rfl⟩
  | call =>
    obtain ⟨c, calls, net, hcalls, hreturned, hperform, rfl⟩ := step_call hst
    obtain ⟨x, d⟩ := c
    rcases perform_cases hperform with ⟨i, hi, hsubmit⟩ | ⟨hx, hcore, hread⟩
    · obtain rfl : x = .core i := hi
      refine Or.inl ⟨_, by rw [toNet, hcalls], hsubmit, ?_, trivial, hinv.idle hreturned⟩
      have horder : h.made ++ s.calls = h.asked := hinv.inOrder
      exact hinv.types (.core i, d) (by
        show _ ∈ h.asked
        rw [← horder, hcalls]
        exact List.mem_append_right _ List.mem_cons_self)
    · refine Or.inr ⟨?_, hcore, fun hall => ?_⟩
      · simp only [toNet, hcalls]
        cases x with
        | core i => exact absurd rfl (hx i)
        | one j => rfl
        | two k => rfl
      · rcases hall (x, d) (hcalls ▸ List.mem_cons_self) with ⟨i, hi⟩ | hd
        · exact absurd hi (hx i)
        · exact hread hd
  | net l =>
    obtain ⟨hl, net, hnet, rfl⟩ := step_net hst
    refine Or.inl ⟨l, rfl, hnet, ?_⟩
    cases l with
    | core l =>
      cases l with
      | submit p d => exact absurd rfl (hl p d)
      | requester p => exact ⟨trivial, trivial, trivial⟩
      | handle p q i => exact ⟨trivial, hfifo, trivial⟩
      | drain a b => exact ⟨trivial, trivial, trivial⟩
    | _ => trivial

/-- With all but the core layer forgotten. -/
def coreView (hG : ∀ s l, G s l → fifo s l) :
    Lockstep historySystem (Guard.past G) (Core.historySystem Tree.controller.mesh)
      (Guard.past (Core.sequentialRuns Tree.controller.mesh)) where
  abs y := (y.1.net.core, y.2.net.core)
  label y l := (toNet y.1 l).bind Propagation.Label.toCore
  init := by
    rintro ⟨s, h⟩ ⟨rfl, rfl⟩
    exact ⟨rfl, rfl⟩
  step := by
    rintro ⟨s, h⟩ l ⟨t, k⟩ hr hg hst
    replace hst := history_step hst
    obtain ⟨hst, rfl⟩ := hst
    rcases net_cases (watcherInv hr) (hG _ _ hg) hst with ⟨m, hm, hnet, hseq⟩ | ⟨hm, hcore, -⟩
    · rw [hm, Option.bind_some]
      have hrecord : (record s l h).net = Propagation.record Tree.controller s.net m h.net := by
        simp only [record, hm]
      rcases Propagation.core_step hnet with ⟨n, hn, hcore⟩ | ⟨hn, hcore⟩
      · rw [hn]
        refine ⟨?_, withHistory_step.mpr ⟨hcore, ?_⟩⟩
        · cases m with
          | core l => exact Option.some.inj hn ▸ hseq
          | handleOne a b => exact Option.some.inj hn ▸ ⟨trivial, trivial, trivial⟩
          | _ => exact absurd hn (by simp [Propagation.Label.toCore])
        · rw [hrecord]
          simp only [Propagation.record, hn]
      · rw [hn]
        show (t.net.core, (record s l h).net.core) = (s.net.core, h.net.core)
        rw [hrecord, hcore]
        simp only [Propagation.record, hn]
    · rw [hm, Option.bind_none]
      show (t.net.core, (record s l h).net.core) = (s.net.core, h.net.core)
      rw [hcore]
      simp only [record, hm]

/-- What was submitted to the core layer are the writes among the calls made. -/
theorem submitted_eq (hy : Reachable historySystem (Guard.past G) (s, h)) :
    h.net.core.submitted = coreWrites h.made := by
  refine Reachable.invariant (I := fun y => y.2.net.core.submitted = coreWrites y.2.made) ?_ ?_ hy
  · rintro ⟨s, h⟩ ⟨rfl, rfl⟩
    rfl
  · rintro ⟨s, h⟩ l ⟨t, k⟩ - ih - hst
    replace hst := history_step hst
    obtain ⟨hst, rfl⟩ := hst
    cases l with
    | modified filename uninit file => exact ih
    | call =>
      obtain ⟨⟨x, d⟩, calls, net, hcalls, -, -, -⟩ := step_call hst
      have ih : h.net.core.submitted = coreWrites h.made := ih
      cases x with
      | core i =>
        by_cases hd : d.type = .read <;>
          simp [record, toNet, hcalls, Propagation.record, Propagation.Label.toCore, Core.record,
            Core.submitting, coreWrites, hd, ih]
      | one j => simp [record, toNet, hcalls, coreWrites, ih]
      | two k => simp [record, toNet, hcalls, coreWrites, ih]
    | net l =>
      obtain ⟨hl, -⟩ := step_net hst
      have ih : h.net.core.submitted = coreWrites h.made := ih
      cases l with
      | core l =>
        cases l with
        | submit p d => exact absurd rfl (hl p d)
        | _ => simp [record, toNet, Propagation.record, Propagation.Label.toCore, Core.record,
            Core.submitting, ih]
      | _ => simp [record, toNet, Propagation.record, Propagation.Label.toCore, Core.record,
          Core.submitting, ih]

end

/-! ## The specification -/

section
variable {σ : Store} {calls : List Call}

/-- Each core node executes the writes of all the calls on core nodes. -/
theorem run_core (σ : Store) (calls : List Call) (i : CoreName) :
    (σ.run calls).transaction (.core i) =
      (σ.transaction (.core i)).executeAll ((coreWrites calls).map Prod.snd) := by
  induction calls generalizing σ with
  | nil => rfl
  | cons c calls ih =>
    obtain ⟨x, d⟩ := c
    rw [Store.run_cons, ih]
    cases x with
    | core j =>
      by_cases hd : d.type = .read
      · simp [Store.executeTransaction, coreWrites, hd, Store.execute_read]
      · simp [Store.executeTransaction, coreWrites, hd, Store.write]
    | one j => simp [Store.executeTransaction, coreWrites, Store.execute_transaction]
    | two k => simp [Store.executeTransaction, coreWrites, Store.execute_transaction]

/-- Where all other calls are reads, these writes are all there is. -/
theorem run_eq_writes (σ : Store) (hcalls : ∀ c ∈ calls, (∃ i, c.1 = .core i) ∨ c.2.type = .read) :
    σ.run calls = σ.writes ((coreWrites calls).map Prod.snd) := by
  induction calls generalizing σ with
  | nil => rfl
  | cons c calls ih =>
    obtain ⟨x, d⟩ := c
    rw [Store.run_cons, ih _ fun c hc => hcalls c (List.mem_cons_of_mem _ hc)]
    have hread : ∀ y, d.type = .read → σ.execute y d = σ := fun y hd => σ.execute_read y hd
    cases x with
    | core j =>
      by_cases hd : d.type = .read
      · simp [Store.executeTransaction, coreWrites, hd, hread]
      · simp [Store.executeTransaction, coreWrites, hd, Store.writes]
    | one j =>
      have hd := (hcalls _ List.mem_cons_self).resolve_left (by simp)
      simp [Store.executeTransaction, coreWrites, hread _ hd]
    | two k =>
      have hd := (hcalls _ List.mem_cons_self).resolve_left (by simp)
      simp [Store.executeTransaction, coreWrites, hread _ hd]

end

/-- What the nodes hold. -/
def State.transaction (s : State) : Node → Transaction
  | .core i => (s.net.core.node (Node.core i).id).transaction
  | .one j => (s.net.one (Node.one j).id).transaction
  | .two k => (s.net.two (Node.two k).id).transaction

/-- With no transaction in progress the writes that calls made on core nodes have entered in that order, and
    every core node has executed them. -/
theorem core_at_rest {G : Guard State Label} (hG : ∀ s l, G s l → fifo s l) {s : State} {h : Hist}
    (hs : Reachable historySystem (Guard.past G) (s, h))
    (hidle : ∀ p ∈ Tree.controller.mesh.cores, (s.net.core.node p).idle = true) :
    h.net.core.entered = coreWrites h.made ∧
      ∀ i, s.transaction (.core i) = (Store.init.run h.made).transaction (.core i) := by
  have hcore := (coreView hG).reachable hs
  have hentered : h.net.core.entered = coreWrites h.made := by
    rw [← submitted_eq hs]
    exact (Core.submitted_eq (fun _ _ h => h.2.2) hcore hidle).symm
  refine ⟨hentered, fun i => ?_⟩
  have hfold := ((Core.agreement (Core.quiet_of_sequential hcore)).quiescent hidle).1 _ (id_mem i)
  rw [run_core, ← hentered]
  exact hfold

/-- Whatever the files hold and in whatever order messages are handled: when the watcher's thread is between
    two calls, the core nodes hold what the calls made so far give in the store, one after another. -/
theorem between_calls (s : State) (h : Hist) (hs : Reachable historySystem (Guard.past fifo) (s, h))
    (hreturned : s.returned = true) (i : CoreName) :
    s.transaction (.core i) = (Store.init.run h.made).transaction (.core i) :=
  (core_at_rest (fun _ _ h => h) hs ((watcherInv hs).idle hreturned)).2 i

/-- A file with one write for `A2`, a callback, and the write. -/
def oneFile : List Label :=
  [.modified "A2_Transactions.txt".toList (0, false) (some "b, r(7), w(sum,3)".toList), .call, .call] ++
    (Propagation.writeRun []).tail.map .net

theorem between_calls_oneFile :
    ∃ s h, Reachable historySystem (Guard.past fifo) (s, h) ∧ s.returned = true ∧
      h.made = [(.core .a2, ⟨.read, 0⟩), (.core .a2, ⟨.sum, 3⟩)] ∧
      s.transaction (.core .a1) = (Store.init.run h.made).transaction (.core .a1) := by
  obtain ⟨⟨s, h⟩, -, hs, hP⟩ := Reachable.of_exec historySystem (Guard.past fifo) (init, Hist.empty) oneFile
    (fun y => y.1.returned && y.2.made == [(.core .a2, ⟨.read, 0⟩), (.core .a2, ⟨.sum, 3⟩)]) ⟨rfl, rfl⟩
    (by decide +kernel)
  simp only [Bool.and_eq_true, beq_iff_eq] at hP
  exact ⟨s, h, hs, hP.1, hP.2, between_calls s h hs hP.1 .a1⟩

end Deployment
end Epidemica
