import Epidemica.Core.Projection
import Epidemica.Lib.Weight
import Mathlib.Data.List.Dedup
import Mathlib.Tactic.Ring

/-!
# `Core.Traffic` — what a write costs on the wire

One write of `p` brings, between `p` and each of its peers, one `REQUEST` and the `ACK` for it, the write
itself and the `READY` for it, and one `RELEASE`. A `Fare` puts a price on each of the five. What a link has
carried, what is on its way, the answers that will bring and what the client thread has still to send add up
to the fare of the writes submitted (`linkInv`), whatever the fare and in whatever order the messages arrive.
-/

namespace Epidemica

open Network Transition

/-- The messages that a write brings about between the writer and one peer. -/
inductive Kind where
  | request | ack | write | ready | release
  deriving DecidableEq, Repr

/-- An answer goes from the peer to the writer, the others the other way. -/
def Kind.isAnswer : Kind → Bool
  | .ack | .ready => true
  | _ => false

/-- The kind of a message; a `SET` and a `READ` have none. -/
def Msg.kind? (m : Msg) : Option Kind :=
  match m.tag with
  | .request => some .request
  | .ack => some .ack
  | .release => some .release
  | .ready => some .ready
  | .sum | .substract | .multiply => some .write
  | _ => none

/-- A price for each of them. -/
abbrev Fare := Kind → Nat

namespace Fare

/-- Between the writer and one peer. -/
def total (f : Fare) : Nat := f .request + f .ack + f .write + f .ready + f .release

/-- The price of a message that the writer sends. -/
def out (f : Fare) (m : Msg) : Nat :=
  match m.tag with
  | .request => f .request
  | .release => f .release
  | .sum | .substract | .multiply => f .write
  | _ => 0

/-- The price of an answer to the writer. -/
def back (f : Fare) (m : Msg) : Nat :=
  match m.tag with
  | .ack => f .ack
  | .ready => f .ready
  | _ => 0

/-- The price of the answer that a message will bring. -/
def promised (f : Fare) (m : Msg) : Nat :=
  match m.tag with
  | .request => f .ack
  | .sum | .substract | .multiply => f .ready
  | _ => 0

/-- The price of a message of the writer, with its answer. -/
def due (f : Fare) (m : Msg) : Nat := f.out m + f.promised m

/-- Counts every message. -/
def each : Fare := fun _ => 1

/-- Counts the messages of one kind. -/
def only (kind : Kind) : Fare := fun k => if k = kind then 1 else 0

variable {f : Fare} {d : TransactionData}

theorem due_msg (h : d.type.isWrite = true) : f.due d.msg = f .write + f .ready := by
  obtain ⟨type, value⟩ := d
  cases type with
  | sum | substract | multiply => rfl
  | read | set | unkown => exact absurd h (by simp [TransactionType.isWrite])

theorem back_msg (d : TransactionData) : f.back d.msg = 0 := by
  obtain ⟨type, value⟩ := d
  cases type <;> rfl

theorem due_set (v : Int) : f.due ⟨.set, v⟩ = 0 := rfl

theorem back_set (v : Int) : f.back ⟨.set, v⟩ = 0 := rfl

/-- What a fare charges for a message handled, it charges for its kind. -/
theorem out_add_back (m : Msg) : f.out m + f.back m = m.kind?.elim 0 f := by
  obtain ⟨tag, v⟩ := m
  cases tag <;> simp [out, back, Msg.kind?]

theorem only_out (kind : Kind) (m : Msg) :
    (only kind).out m = if kind.isAnswer = false ∧ m.kind? = some kind then 1 else 0 := by
  obtain ⟨tag, v⟩ := m
  cases tag <;> cases kind <;> rfl

theorem only_back (kind : Kind) (m : Msg) :
    (only kind).back m = if kind.isAnswer = true ∧ m.kind? = some kind then 1 else 0 := by
  obtain ⟨tag, v⟩ := m
  cases tag <;> cases kind <;> rfl

end Fare

/-! ## What a client thread has still to send -/

/-- To `q`, in the rest of `requestCS` and `releaseCS`. -/
def Pc.owes (f : Fare) (q : Int) : Pc → Nat
  | .idle => 0
  | .getValue | .store _ => f .request + f .ack + f .release
  | .sendRequest _ todo => todo.count q * (f .request + f .ack) + f .release
  | .wait _ | .inCS _ | .getRelease _ => f .release
  | .sendRelease _ _ todo => todo.count q * f .release

/-- `requestCS` has been called and has not returned. -/
def Pc.requesting : Pc → Bool
  | .getValue | .store _ | .sendRequest _ _ | .wait _ => true
  | _ => false

/-- To `q`, between `requestCS` and `releaseCS`. -/
def CsPc.owes (f : Fare) (q : Int) : CsPc → Nat
  | .sendWrite todo => todo.count q * (f .write + f .ready)
  | _ => 0

/-- A statement of the mutex sends what it no longer owes. -/
theorem MutexNode.owes_requester {f : Fare} {peers : List Int} (me : Int) {q : Int} {n : MutexNode}
    (hq : peers.count q = 1) (hidle : n.pc ≠ .idle) :
    weigh f.due (select q (n.requester peers me).2) + (n.requester peers me).1.pc.owes f q =
      n.pc.owes f q := by
  obtain ⟨m, pc⟩ := n
  cases pc with
  | idle => exact absurd rfl hidle
  | getValue => simp [requester, Pc.owes]
  | store t => simp [requester, Pc.owes, hq]
  | sendRequest t todo =>
    cases todo with
    | nil => simp [requester, Pc.owes]
    | cons x todo =>
      by_cases hx : x = q
      · simp [requester, Pc.owes, hx, Fare.due, Fare.out, Fare.promised, Nat.add_mul]
        omega
      · simp [requester, Pc.owes, hx]
  | wait t =>
    simp only [requester]
    split <;> simp [Pc.owes]
  | inCS t => simp [requester, Pc.owes]
  | getRelease t => simp [requester, Pc.owes, hq]
  | sendRelease t v todo =>
    cases todo with
    | nil => simp [requester, Pc.owes]
    | cons x todo =>
      by_cases hx : x = q
      · simp [requester, Pc.owes, hx, Fare.due, Fare.out, Fare.promised, Nat.add_mul]
        omega
      · simp [requester, Pc.owes, hx]

namespace CoreNode

/-- What the transaction in progress has still to send to `q`, with the answers that will bring. -/
def owes (f : Fare) (q : Int) (n : CoreNode) : Nat :=
  n.mutex.pc.owes f q +
    if n.mutex.pc.requesting then f .write + f .ready
    else if n.mutex.pc.isInCS then n.cs.owes f q
    else 0

variable {f : Fare} {L : Layers} {me q : Int} {n : CoreNode}

theorem owes_idle (h : n.idle = true) : n.owes f q = 0 := by
  have hpc : n.mutex.pc = .idle := by simpa [idle] using h
  simp [owes, Pc.owes, Pc.requesting, Pc.isInCS, hpc]

/-- A new write owes its whole fare. -/
theorem owes_executeTransaction (me : Int) {d : TransactionData} (hidle : n.idle = true)
    (hd : d.type ≠ .read) : (n.executeTransaction L me d).owes f q = f.total := by
  have hpc : n.mutex.pc = .idle := by simpa [idle] using hidle
  simp [executeTransaction, hd, owes, MutexNode.requester, hpc, Pc.owes, Pc.requesting, Fare.total]
  omega

/-- A statement of the critical section sends what it no longer owes. -/
theorem owes_critical (hwrite : n.trans.type.isWrite = true) :
    weigh f.due (select q (n.critical L).2) + (n.critical L).1.cs.owes f q = n.cs.owes f q := by
  have hdue := Fare.due_msg (f := f) hwrite
  obtain ⟨m, cs, tr, d, wc, fin⟩ := n
  rcases cs with ⟨_ | ⟨x, todo⟩⟩ | _ | _ | _ | _ | ⟨v, _ | ⟨b, todo⟩⟩ | _ | _ | _ | _ <;>
    simp only [critical]
  case sendWrite.cons =>
    by_cases hx : x = q
    · simp [CsPc.owes, hx, hdue, Nat.add_mul]
      omega
    · simp [CsPc.owes, hx]
  case testCount => split <;> simp [CsPc.owes]
  case sendSet.cons =>
    by_cases hb : b = q <;> simp [CsPc.owes, hb, Fare.due_set]
  case waitReady => split <;> simp [CsPc.owes]
  all_goals simp [CsPc.owes]

/-- What a statement sends to `q` is no longer owed. -/
theorem owes_requester (me : Int) (hq : (L CORE_LAYER).count q = 1) (hidle : n.idle = false)
    (hwrite : n.trans.type.isWrite = true) :
    weigh f.due (select q (n.requester L me).2) + (n.requester L me).1.owes f q = n.owes f q := by
  unfold requester
  split
  · rename_i hcs
    obtain ⟨t, hpc⟩ := Pc.isInCS_iff.mp hcs.1
    have hcrit := owes_critical (f := f) (L := L) (q := q) hwrite
    simp only [owes, critical_frame.1, hpc, Pc.requesting, Pc.isInCS, if_true, Bool.false_eq_true,
      if_false]
    omega
  · rename_i hcs
    have hpc : n.mutex.pc ≠ .idle := by simpa [idle] using hidle
    have hmutex := MutexNode.owes_requester (f := f) me hq hpc
    -- the write is owed until it is sent, and it is sent to every peer from the entry on
    have hrest : (if (n.mutex.requester (L CORE_LAYER) me).1.pc.requesting then f .write + f .ready
        else if (n.mutex.requester (L CORE_LAYER) me).1.pc.isInCS then
          (CsPc.sendWrite (L CORE_LAYER)).owes f q else 0) =
        if n.mutex.pc.requesting then f .write + f .ready
        else if n.mutex.pc.isInCS then n.cs.owes f q else 0 := by
      obtain ⟨⟨m, pc⟩, cs, d, tr, wc, fin⟩ := n
      rcases pc with _ | _ | _ | ⟨_, _ | _⟩ | _ | _ | _ | ⟨_, _, _ | _⟩ <;>
        simp only [MutexNode.requester] <;> (try split) <;>
        simp_all [Pc.requesting, Pc.isInCS, CsPc.owes]
    simp only [owes] at hmutex ⊢
    rw [← hrest]
    split
    · omega
    · split
      · simp only [*, if_true] at *
        omega
      · omega

/-- A client thread answers nobody. -/
theorem back_requester : ∀ o ∈ (n.requester L me).2, f.back o.2 = 0 := by
  unfold requester
  split
  · obtain ⟨m, cs, tr, d, wc, fin⟩ := n
    rcases cs with ⟨_ | _⟩ | _ | _ | _ | _ | ⟨_, _ | _⟩ | _ | _ | _ | _ <;>
      simp only [critical] <;> (try split) <;> simp [Fare.back_msg, Fare.back_set]
  · obtain ⟨⟨m, pc⟩, cs, tr, d, wc, fin⟩ := n
    rcases pc with _ | _ | _ | ⟨_, _ | _⟩ | _ | _ | _ | ⟨_, _, _ | _⟩ <;>
      simp only [MutexNode.requester] <;> (try split) <;> simp [Fare.back]

/-- No message moves the client thread on. -/
theorem owes_handleMsg (me : Int) (m : Msg) (src : Int) :
    (n.handleMsg L me m.value src m.tag).1.owes f q = n.owes f q := by
  obtain ⟨-, -, hcs, hpc⟩ := handleMsg_pending? (L := L) (n := n) me m src
  simp only [owes, hcs, hpc]

/-- The handler begins nothing. -/
theorem due_handleMsg (m : Msg) (src : Int) :
    ∀ o ∈ (n.handleMsg L me m.value src m.tag).2, f.due o.2 = 0 := by
  intro o ho
  rcases mem_handleMsg ho with ⟨b, -, v, rfl⟩ | ⟨-, rfl⟩ | ⟨-, rfl⟩ <;> rfl

/-- It gives the sender the answer that was promised, and answers nobody else. -/
theorem back_handleMsg (me : Int) (m : Msg) (src x : Int) :
    weigh f.back (select x (n.handleMsg L me m.value src m.tag).2) =
      if x = src then f.promised m else 0 := by
  have hsets : ∀ v, weigh f.back (select x (broadcastMsg L .set v LAYER_ONE)) = 0 := by
    intro v
    apply weigh_eq_zero
    intro o ho
    obtain ⟨c, -, heq⟩ := List.mem_map.mp (mem_select.mp ho)
    rw [← (Prod.mk.inj heq).2]
    rfl
  obtain ⟨tag, v⟩ := m
  have hwrite : ∀ d, weigh f.back (select x (n.handleWrite L d v src).2) =
      if x = src then f .ready else 0 := by
    intro d
    have hset : weigh f.back (select x (if n.writeCount + 1 ≥ 10 then
        broadcastMsg L .set (n.transaction.execute d).version.toInt LAYER_ONE else [])) = 0 := by
      split
      · exact hsets _
      · rfl
    rw [handleWrite_outs, select_append, weigh_append, hset]
    by_cases hx : x = src
    · simp [hx, Fare.back]
    · simp [hx, Ne.symm hx]
  cases tag with
  | sum | substract | multiply => exact hwrite _
  | request =>
    by_cases hx : x = src
    · simp [handleMsg, MutexNode.handle, LamportMutex.handleMsg, hx, Fare.back, Fare.promised]
    · simp [handleMsg, MutexNode.handle, LamportMutex.handleMsg, hx, Ne.symm hx]
  | _ => simp [handleMsg, MutexNode.handle, LamportMutex.handleMsg, Fare.promised]

/-- A client thread sends messages of the five kinds, and `SET`s to the layer below. -/
theorem kind_requester (hset : ∀ v todo, n.cs = .sendSet v todo → todo ⊆ L LAYER_ONE)
    (hwrite : n.idle = false → n.trans.type.isWrite = true) :
    ∀ o ∈ (n.requester L me).2, o.1 ∈ L LAYER_ONE ∨ o.2.kind?.isSome = true := by
  obtain ⟨⟨m, pc⟩, cs, tr, d, wc, fin⟩ := n
  unfold requester
  split
  · rename_i hcs
    obtain ⟨t, rfl⟩ := Pc.isInCS_iff.mp hcs.1
    rcases cs with ⟨_ | ⟨x, todo⟩⟩ | _ | _ | _ | _ | ⟨v, _ | ⟨b, todo⟩⟩ | _ | _ | _ | _ <;>
      simp only [critical]
    case sendWrite.cons =>
      have hkind : tr.msg.kind?.isSome = true := by
        have hw : tr.type.isWrite = true := hwrite rfl
        obtain ⟨type, value⟩ := tr
        cases type <;> simp_all [TransactionData.msg, TransactionType.tag, Msg.kind?,
          TransactionType.isWrite]
      simp [hkind]
    case sendSet.cons =>
      intro o ho
      rw [List.mem_singleton.mp ho]
      exact Or.inl (hset v _ rfl List.mem_cons_self)
    case waitReady => split <;> simp
    all_goals simp
  · rcases pc with _ | _ | _ | ⟨_, _ | _⟩ | _ | _ | _ | ⟨_, _, _ | _⟩ <;>
      simp only [MutexNode.requester] <;> (try split) <;> simp [Msg.kind?]

/-- So does the handler. -/
theorem kind_handleMsg (m : Msg) (src : Int) :
    ∀ o ∈ (n.handleMsg L me m.value src m.tag).2, o.1 ∈ L LAYER_ONE ∨ o.2.kind?.isSome = true := by
  intro o ho
  rcases mem_handleMsg ho with ⟨b, hb, v, rfl⟩ | ⟨-, rfl⟩ | ⟨-, rfl⟩
  · exact Or.inl hb
  · exact Or.inr rfl
  · exact Or.inr rfl

end CoreNode

/-! ## The links of a mesh -/

/-- How many nodes the core layer has. -/
def Mesh.size (net : Mesh) : Nat := net.cores.dedup.length

/-- The connections of the core layer, each under its receiver and its sender. -/
def Mesh.links (net : Mesh) : List (Int × Int) :=
  net.cores.dedup.flatMap fun p => (net.peers p).map fun q => (p, q)

namespace Mesh

variable {net : Mesh} {p q : Int}

theorem count_peers (hp : p ∈ net.cores) (hq : q ∈ net.peers p) : (net.peers p).count q = 1 :=
  List.count_eq_one_of_mem (net.nodup p hp) hq

theorem mem_links : (p, q) ∈ net.links ↔ p ∈ net.cores ∧ q ∈ net.peers p := by
  simp [links]

/-- Every node has all others as peers. -/
theorem length_peers (hp : p ∈ net.cores) : (net.peers p).length + 1 = net.size := by
  have hperm : (p :: net.peers p).Perm net.cores.dedup := by
    refine (List.perm_ext_iff_of_nodup ?_ (List.nodup_dedup _)).mpr ?_
    · exact List.nodup_cons.mpr ⟨fun h => ((net.mem_peers hp).mp h).2 rfl, net.nodup p hp⟩
    · intro q
      rw [List.mem_cons, List.mem_dedup, net.mem_peers hp]
      by_cases hq : q = p <;> simp [hq, hp]
  exact hperm.length_eq

theorem nodup_links : net.links.Nodup := by
  refine List.nodup_flatMap.mpr ⟨?_, ?_⟩
  · intro p hp
    exact (net.nodup p (List.mem_dedup.mp hp)).map fun a b h => (Prod.mk.inj h).2
  · refine (List.nodup_dedup net.cores).imp ?_
    intro p₁ p₂ hne
    show List.Disjoint _ _
    rw [List.disjoint_left]
    rintro ⟨a, b⟩ h₁ h₂
    obtain ⟨_, -, heq₁⟩ := List.mem_map.mp h₁
    obtain ⟨_, -, heq₂⟩ := List.mem_map.mp h₂
    exact hne ((Prod.mk.inj heq₁).1.trans (Prod.mk.inj heq₂).1.symm)

/-- Connections go both ways. -/
theorem links_swap : (net.links.map Prod.swap).Perm net.links := by
  refine (List.perm_ext_iff_of_nodup (nodup_links.map Prod.swap_injective) nodup_links).mpr ?_
  rintro ⟨p, q⟩
  have hsymm : ∀ {a b}, (a, b) ∈ net.links → (b, a) ∈ net.links := by
    intro a b h
    obtain ⟨ha, hb⟩ := mem_links.mp h
    obtain ⟨hb, hne⟩ := (net.mem_peers ha).mp hb
    exact mem_links.mpr ⟨hb, (net.mem_peers hb).mpr ⟨ha, hne.symm⟩⟩
  constructor
  · intro h
    obtain ⟨⟨a, b⟩, hab, heq⟩ := List.mem_map.mp h
    exact heq ▸ hsymm hab
  · intro h
    exact List.mem_map.mpr ⟨(q, p), hsymm h, rfl⟩

end Mesh

namespace Core

/-! ## What the links have carried -/

/-- The writes submitted, and the messages handled, each under its receiver and its sender. -/
structure Carried where
  submitted : List (Int × TransactionData)
  handled : List ((Int × Int) × Msg)

/-- The message a step handles. -/
def handling (s : State) : Label → List ((Int × Int) × Msg)
  | .handle p q i => (s.chan q p)[i]?.toList.map fun m => ((p, q), m)
  | _ => []

/-- The core layer with a record of its traffic. -/
def trafficSystem (net : Mesh) : System (State × Carried) Label :=
  (system net).withHistory ⟨[], []⟩ fun s l k =>
    ⟨k.submitted ++ submitting l, k.handled ++ handling s l⟩

/-- The writes submitted to `p`. -/
def Carried.writes (k : Carried) (p : Int) : Nat := (select p k.submitted).length

/-- What has been carried between `p` and `q` for the writes of `p`. -/
def Carried.paid (f : Fare) (p q : Int) (k : Carried) : Nat :=
  weigh f.out (select (q, p) k.handled) + weigh f.back (select (p, q) k.handled)

/-- What is still to be carried. -/
def unpaid (f : Fare) (p q : Int) (s : State) : Nat :=
  weigh f.due (s.chan p q) + weigh f.back (s.chan q p) + (s.node p).owes f q

/-- The account of writer `p` with peer `q`. -/
def account (f : Fare) (p q : Int) (s : State) (k : Carried) : Nat := k.paid f p q + unpaid f p q s

section
variable {net : Mesh} {f : Fare} {s t : State} {p q : Int} {k : Carried}

/-- A statement of a client thread changes no account. -/
theorem account_requester (hp : p ∈ net.cores) (hq : q ∈ net.peers p)
    (hwrite : ∀ w, (s.node w).idle = false → (s.node w).trans.type.isWrite = true) {a : Int}
    (hst : (system net).step s (.requester a) = some t) : account f p q t k = account f p q s k := by
  obtain ⟨-, hidle, rfl⟩ := step_requester hst
  have hpq : p ≠ q := (((net.mem_peers hp).mp hq).2).symm
  by_cases ha : p = a
  · subst ha
    have howes := CoreNode.owes_requester (f := f) p (net.count_peers hp hq) hidle (hwrite p hidle)
    simp only [account, unpaid, put_chan, put_node, if_true, if_neg hpq.symm, weigh_append]
    unfold Mesh.peers at *
    omega
  · by_cases haq : q = a
    · subst haq
      have hback : weigh f.back (select p ((s.node q).requester (net.layers q) q).2) = 0 :=
        weigh_eq_zero fun m hm => CoreNode.back_requester _ (mem_select.mp hm)
      simp [account, unpaid, ha, hback]
    · simp [account, unpaid, ha, haq]

/-- Nor does a handled message: it is carried, and the answer it promised is on its way. -/
theorem account_handle (hp : p ∈ net.cores) (hq : q ∈ net.peers p) {a b : Int} {i : Nat}
    (hst : (system net).step s (.handle a b i) = some t) :
    account f p q t ⟨k.submitted, k.handled ++ handling s (.handle a b i)⟩ = account f p q s k := by
  obtain ⟨ha, hb, m, hm, rfl⟩ := step_handle hst
  have hpq : p ≠ q := (((net.mem_peers hp).mp hq).2).symm
  have hba : b ≠ a := ((net.mem_peers ha).mp hb).2
  have hout (x : Int) : weigh f.due
      (select x ((s.node a).handleMsg (net.layers a) a m.value b m.tag).2) = 0 :=
    weigh_eq_zero fun o ho => CoreNode.due_handleMsg m b _ (mem_select.mp ho)
  have hback (x : Int) := CoreNode.back_handleMsg (f := f) (L := net.layers a)
    (n := s.node a) a m b x
  have howes := CoreNode.owes_handleMsg (f := f) (L := net.layers a) (q := q)
    (n := s.node a) a m b
  have hdue : weigh f.due ((s.chan b a).eraseIdx i) + f.due m = weigh f.due (s.chan b a) :=
    weigh_eraseIdx hm
  have hanswer : weigh f.back ((s.chan b a).eraseIdx i) + f.back m = weigh f.back (s.chan b a) :=
    weigh_eraseIdx hm
  have hsplit : f.due m = f.out m + f.promised m := rfl
  simp only [handling, hm, Option.toList_some, List.map_cons, List.map_nil, account, Carried.paid, unpaid,
    select_append, select_cons, select_nil, List.append_nil, weigh_append, put_node, put_chan, take_node,
    take_chan]
  by_cases hap : a = p
  · subst hap
    by_cases hbq : b = q
    · -- the writer handles an answer of the peer
      subst hbq
      simp [hba, hpq, hout, howes]
      omega
    · -- the writer handles a message of another node
      simp [hbq, Ne.symm hbq, hpq, hpq.symm, hout, howes]
  · by_cases haq : a = q
    · subst haq
      by_cases hbp : b = p
      · -- the peer handles a message of the writer, and answers
        subst hbp
        simp [hba, hback, hap]
        omega
      · simp [hbp, Ne.symm hbp, hpq, hba.symm, hap, hback]
    · simp [hap, haq, Ne.symm hap, Ne.symm haq]

/-- Every account is balanced: it stands at the fare of the writes submitted. -/
theorem linkInv {G : Guard State Label} (hclients : ∀ s l, G s l → clients s l) (f : Fare)
    (hp : p ∈ net.cores) (hq : q ∈ net.peers p)
    (hy : Reachable (trafficSystem net) (Guard.past G) (s, k)) :
    account f p q s k = k.writes p * f.total := by
  refine Reachable.invariant
    (I := fun y => account f p q y.1 y.2 = y.2.writes p * f.total) ?_ ?_ hy
  · rintro ⟨s, k⟩ ⟨rfl, rfl⟩
    simp [account, Carried.paid, Carried.writes, unpaid, init, CoreNode.owes_idle, CoreNode.idle,
      CoreNode.init, MutexNode.init]
  · rintro ⟨s, k⟩ l ⟨t, k'⟩ hr ih hg hst
    obtain ⟨hst, rfl⟩ := withHistory_step.mp hst
    simp only at hst ih ⊢
    cases l with
    | submit a d =>
      obtain ⟨-, hidle, rfl⟩ := step_submit hst
      simp only [Carried.writes, submitting, handling, List.append_nil, select_append, List.length_append]
      by_cases hd : d.type = .read
      · -- a `READ` moves no thread and sends nothing
        rw [if_pos hd, select_nil, List.length_nil, Nat.add_zero]
        refine Eq.trans ?_ ih
        by_cases hap : p = a <;>
          simp [account, Carried.paid, unpaid, hap, CoreNode.executeTransaction, hd, CoreNode.owes]
      · rw [if_neg hd, Nat.add_mul]
        refine Eq.trans ?_ (congrArg (· + _) ih)
        by_cases hap : p = a
        · subst hap
          have hnew := CoreNode.owes_executeTransaction (f := f) (L := net.layers p) (q := q)
            p hidle hd
          have hold := CoreNode.owes_idle (f := f) (q := q) hidle
          simp [account, Carried.paid, unpaid, hnew, hold]
          omega
        · simp [account, Carried.paid, unpaid, hap, Ne.symm hap]
    | requester a =>
      have hsame := account_requester (f := f) (k := k) hp hq (trans_isWrite hclients hr.forget) hst
      simpa [Carried.writes, submitting, handling] using hsame.trans ih
    | handle a b i =>
      have hsame := account_handle (f := f) (k := k) hp hq hst
      simpa [Carried.writes, submitting] using hsame.trans ih
    | drain a b =>
      obtain ⟨hb, -, rfl⟩ := step_drain net.layers hst
      have hbq : q ≠ b := fun hqb => hb (hqb ▸ ((net.mem_peers hp).mp hq).1)
      have hbp : p ≠ b := fun hpb => hb (hpb ▸ hp)
      simpa [Carried.writes, Carried.paid, unpaid, submitting, handling, account, hbq, hbp] using ih

/-- What is on record concerns the core layer: writes of its nodes, and messages of the five kinds on its
    connections. -/
structure OnRecord (net : Mesh) (s : State) (k : Carried) : Prop where
  submitted : ∀ o ∈ k.submitted, o.1 ∈ net.cores.dedup
  handled : ∀ o ∈ k.handled, o.1 ∈ net.links ∧ o.2.kind?.isSome = true
  chan : ∀ p ∈ net.cores, ∀ q ∈ net.cores, ∀ m ∈ s.chan p q, m.kind?.isSome = true

/-- Messages of the five kinds join a connection, and others leave it. -/
theorem kind_put {net : Mesh} {s : State} {a : Int} {r : CoreNode × Outs}
    (hs : ∀ p ∈ net.cores, ∀ q ∈ net.cores, ∀ m ∈ s.chan p q, m.kind?.isSome = true)
    (ha : a ∈ net.cores) (hr : ∀ o ∈ r.2, o.1 ∈ net.layers a LAYER_ONE ∨ o.2.kind?.isSome = true) :
    ∀ p ∈ net.cores, ∀ q ∈ net.cores, ∀ m ∈ (s.put a r).chan p q, m.kind?.isSome = true := by
  intro p hp q hq m hm
  rw [put_chan] at hm
  split at hm
  · rcases List.mem_append.mp hm with hm | hm
    · exact hs p hp q hq m hm
    · exact (hr _ (mem_select.mp hm)).resolve_left fun hb => net.below a ha q hb hq
  · exact hs p hp q hq m hm

theorem onRecord {G : Guard State Label} (hclients : ∀ s l, G s l → clients s l)
    (hy : Reachable (trafficSystem net) (Guard.past G) (s, k)) : OnRecord net s k := by
  refine Reachable.invariant (I := fun y => OnRecord net y.1 y.2) ?_ ?_ hy
  · rintro ⟨s, k⟩ ⟨rfl, rfl⟩
    exact ⟨by simp, by simp, by simp [init]⟩
  · rintro ⟨s, k⟩ l ⟨t, k'⟩ hr ih hg hst
    obtain ⟨hst, rfl⟩ := withHistory_step.mp hst
    obtain ⟨hsub, hhand, hchan⟩ := ih
    simp only at hst hsub hhand hchan ⊢
    cases l with
    | submit a d =>
      obtain ⟨ha, -, rfl⟩ := step_submit hst
      refine ⟨?_, by simpa [handling] using hhand, kind_put hchan ha (by simp)⟩
      intro o ho
      rcases List.mem_append.mp ho with ho | ho
      · exact hsub o ho
      · simp only [submitting] at ho
        split at ho
        · exact absurd ho (by simp)
        · rw [List.mem_singleton.mp ho]
          exact List.mem_dedup.mpr ha
    | requester a =>
      obtain ⟨ha, -, rfl⟩ := step_requester hst
      refine ⟨by simpa [submitting] using hsub, by simpa [handling] using hhand, kind_put hchan ha ?_⟩
      exact CoreNode.kind_requester (destInv hr.forget a).set (trans_isWrite hclients hr.forget a)
    | handle a b i =>
      obtain ⟨ha, hb, m, hm, rfl⟩ := step_handle hst
      have hb' : b ∈ net.peers a := hb
      have hmem : m ∈ s.chan b a := List.mem_of_getElem? hm
      refine ⟨by simpa [submitting] using hsub, ?_, kind_put ?_ ha (CoreNode.kind_handleMsg m b)⟩
      · intro o ho
        rcases List.mem_append.mp ho with ho | ho
        · exact hhand o ho
        · obtain rfl : o = ((a, b), m) := by simpa [handling, hm] using ho
          exact ⟨Mesh.mem_links.mpr ⟨ha, hb'⟩, hchan b ((net.mem_peers ha).mp hb').1 a ha m hmem⟩
      · intro p hp q hq x hx
        rw [take_chan] at hx
        split at hx
        · exact hchan p hp q hq x (List.mem_of_mem_eraseIdx hx)
        · exact hchan p hp q hq x hx
    | drain a b =>
      obtain ⟨-, -, rfl⟩ := step_drain net.layers hst
      refine ⟨by simpa [submitting] using hsub, by simpa [handling] using hhand, ?_⟩
      intro p hp q hq x hx
      rw [take_chan] at hx
      split at hx
      · exact hchan p hp q hq x (List.mem_of_mem_eraseIdx hx)
      · exact hchan p hp q hq x hx

/-! ## The whole layer -/

/-- The price of all that has been handled. -/
def Carried.spent (f : Fare) (k : Carried) : Nat := weigh (fun o => f.out o.2 + f.back o.2) k.handled

/-- The accounts of all links make up the whole. -/
theorem spent_eq (f : Fare) (h : OnRecord net s k) :
    k.spent f = weigh (fun x => k.paid f x.1 x.2) net.links := by
  have hkeys : ∀ o ∈ k.handled, o.1 ∈ net.links := fun o ho => (h.handled o ho).1
  calc k.spent f
      = weigh (fun x => weigh f.out (select x k.handled)) net.links +
          weigh (fun x => weigh f.back (select x k.handled)) net.links := by
        rw [Carried.spent, weigh_keys (fun m => f.out m + f.back m) Mesh.nodup_links hkeys, ← weigh_add]
        exact weigh_congr fun x _ => weigh_add
    _ = weigh (fun x => weigh f.out (select x.swap k.handled)) net.links +
          weigh (fun x => weigh f.back (select x k.handled)) net.links := by
        -- what the writer sends is on record at the other end of the connection
        rw [← weigh_perm Mesh.links_swap, weigh_map]
    _ = weigh (fun x => k.paid f x.1 x.2) net.links := weigh_add.symm

/-- The writes of a node are charged once for each of its peers. -/
theorem charged_eq (c : Nat) (h : OnRecord net s k) :
    weigh (fun x => k.writes x.1 * c) net.links = c * ((net.size - 1) * k.submitted.length) := by
  have hnode : ∀ p ∈ net.cores.dedup, weigh (fun x => k.writes x.1 * c)
      ((net.peers p).map fun q => (p, q)) = c * (net.size - 1) * k.writes p := by
    intro p hp
    have hlen := net.length_peers (List.mem_dedup.mp hp)
    have hlen : (net.peers p).length = net.size - 1 := by omega
    rw [weigh_map]
    show weigh (fun _ => k.writes p * c) (net.peers p) = _
    rw [weigh_const, hlen]
    ring
  have hall : k.submitted.length = weigh k.writes net.cores.dedup := by
    have hkeys := weigh_keys (fun _ : TransactionData => 1) (List.nodup_dedup net.cores) h.submitted
    rw [weigh_const, Nat.mul_one] at hkeys
    rw [hkeys]
    exact weigh_congr fun p _ => (weigh_const 1).trans (Nat.mul_one _)
  rw [Mesh.links, weigh_flatMap, weigh_congr hnode, weigh_mul, hall]
  ring

/-- All that a fare charges is paid in the end, and never more. -/
theorem spent_le {G : Guard State Label} (hclients : ∀ s l, G s l → clients s l) (f : Fare)
    (hy : Reachable (trafficSystem net) (Guard.past G) (s, k)) :
    k.spent f ≤ f.total * ((net.size - 1) * k.submitted.length) := by
  have hrec := onRecord hclients hy
  rw [spent_eq f hrec, ← charged_eq f.total hrec]
  apply weigh_le
  rintro ⟨p, q⟩ hpq
  obtain ⟨hp, hq⟩ := Mesh.mem_links.mp hpq
  have hlink := linkInv hclients f hp hq hy
  unfold account at hlink
  simp only
  omega

end

/-- How many messages of a kind have been handled for the writes of `p`, by `q` or by `p` from `q`. -/
def exchanged (kind : Kind) (p q : Int) (k : Carried) : Nat :=
  (select (if kind.isAnswer then (p, q) else (q, p)) k.handled).countP fun m => m.kind? = some kind

theorem paid_only {kind : Kind} {p q : Int} {k : Carried} :
    k.paid (Fare.only kind) p q = exchanged kind p q k := by
  have hout (x : Int × Int) : weigh (Fare.only kind).out (select x k.handled) =
      if kind.isAnswer then 0 else (select x k.handled).countP fun m => m.kind? = some kind := by
    rw [weigh_congr fun m _ => Fare.only_out kind m, weigh_ite]
    cases kind.isAnswer <;> simp
  have hback (x : Int × Int) : weigh (Fare.only kind).back (select x k.handled) =
      if kind.isAnswer then (select x k.handled).countP fun m => m.kind? = some kind else 0 := by
    rw [weigh_congr fun m _ => Fare.only_back kind m, weigh_ite]
    cases kind.isAnswer <;> simp
  unfold Carried.paid exchanged
  rw [hout, hback]
  cases kind.isAnswer <;> simp

/-- Between `p` and `q` nothing is under way, and `p` has no transaction in progress. -/
def Settled (p q : Int) (s : State) : Prop :=
  (s.node p).idle = true ∧ s.chan p q = [] ∧ s.chan q p = []

theorem Settled.unpaid {p q : Int} {s : State} (h : Settled p q s) (f : Fare) : unpaid f p q s = 0 := by
  obtain ⟨hidle, hpq, hqp⟩ := h
  simp [Core.unpaid, hpq, hqp, CoreNode.owes_idle hidle]

/-- Whatever the order in which the messages of the core layer are delivered: between a writer and each of
    its peers there is never more than one `REQUEST`, `ACK`, write, `READY` and `RELEASE` for each write
    submitted, and exactly one once the writer is idle and nothing is under way between the two. In all,
    `5 (n - 1)` messages are handled for a write in a layer of `n` nodes. -/
theorem messages_per_write (net : Mesh) (s : State) (k : Carried)
    (hy : Reachable (trafficSystem net) (Guard.past clients) (s, k)) :
    (∀ p ∈ net.cores, ∀ q ∈ net.peers p, ∀ kind,
      exchanged kind p q k ≤ k.writes p ∧ (Settled p q s → exchanged kind p q k = k.writes p)) ∧
    k.handled.length ≤ 5 * ((net.size - 1) * k.submitted.length) ∧
    ((∀ p ∈ net.cores, ∀ q ∈ net.peers p, Settled p q s) →
      k.handled.length = 5 * ((net.size - 1) * k.submitted.length)) := by
  have hclients : ∀ s l, clients s l → clients s l := fun _ _ h => h
  have hrec := onRecord hclients hy
  have hlength : k.handled.length = k.spent Fare.each := by
    have hone : k.spent Fare.each = weigh (fun _ => 1) k.handled := by
      apply weigh_congr
      intro o ho
      obtain ⟨kind, hkind⟩ := Option.isSome_iff_exists.mp (hrec.handled o ho).2
      rw [Fare.out_add_back, hkind]
      rfl
    rw [hone, weigh_const, Nat.mul_one]
  refine ⟨?_, ?_, ?_⟩
  · intro p hp q hq kind
    have hlink := linkInv hclients (Fare.only kind) hp hq hy
    have htotal : (Fare.only kind).total = 1 := by cases kind <;> rfl
    rw [account, paid_only, htotal, Nat.mul_one] at hlink
    refine ⟨by omega, ?_⟩
    intro hsettled
    rw [hsettled.unpaid] at hlink
    exact hlink
  · rw [hlength]
    exact spent_le hclients Fare.each hy
  · intro hsettled
    rw [hlength, spent_eq _ hrec]
    refine Eq.trans (weigh_congr ?_) (charged_eq 5 hrec)
    rintro ⟨p, q⟩ hpq
    obtain ⟨hp, hq⟩ := Mesh.mem_links.mp hpq
    have hlink := linkInv hclients Fare.each hp hq hy
    rw [account, (hsettled p hp q hq).unpaid] at hlink
    exact hlink

/-- Two nodes, one write, until nothing is under way any more. -/
def settledRun : List Label :=
  [.submit 1 ⟨.sum, 5⟩, .requester 1, .requester 1, .requester 1, .requester 1,
    .handle 2 1 0, .handle 1 2 0, .requester 1, .requester 1, .requester 1, .handle 2 1 0,
    .requester 1, .requester 1, .requester 1, .handle 1 2 0, .requester 1, .requester 1, .requester 1,
    .requester 1, .requester 1, .requester 1, .handle 2 1 0]

theorem messages_per_write_settledRun :
    ∃ s k, Reachable (trafficSystem Mesh.two) (Guard.past clients) (s, k) ∧
      k.submitted.length = 1 ∧ exchanged .ready 1 2 k = 1 ∧ k.handled.length = 5 := by
  obtain ⟨⟨s, k⟩, -, hs, hP⟩ := Reachable.of_exec (trafficSystem Mesh.two) (Guard.past clients)
    (init, ⟨[], []⟩) settledRun
    (fun y => (y.1.node 1).idle && (y.1.node 2).idle && (y.1.chan 1 2).isEmpty && (y.1.chan 2 1).isEmpty &&
      y.2.writes 1 == 1 && y.2.submitted.length == 1) ⟨rfl, rfl⟩ (by decide)
  simp only [Bool.and_eq_true, beq_iff_eq, List.isEmpty_iff] at hP
  obtain ⟨⟨⟨⟨⟨h₁, h₂⟩, h₁₂⟩, h₂₁⟩, hwrites⟩, hlength⟩ := hP
  have hall := messages_per_write Mesh.two s k hs
  have hsettled : ∀ p ∈ Mesh.two.cores, ∀ q ∈ Mesh.two.peers p, Settled p q s := by
    intro p hp q hq
    have hcases : p = 1 ∧ q = 2 ∨ p = 2 ∧ q = 1 := by
      have hpq := (Mesh.two.mem_peers hp).mp hq
      simp only [Mesh.two, Mesh.full, Mesh.attached, List.mem_cons, List.not_mem_nil, or_false] at hp hpq
      omega
    rcases hcases with ⟨rfl, rfl⟩ | ⟨rfl, rfl⟩
    · exact ⟨h₁, h₁₂, h₂₁⟩
    · exact ⟨h₂, h₂₁, h₁₂⟩
  refine ⟨s, k, hs, hlength, ?_, ?_⟩
  · rw [(hall.1 1 (by decide) 2 (by decide) .ready).2 (hsettled 1 (by decide) 2 (by decide)), hwrites]
  · rw [hall.2.2 hsettled, hlength]
    decide

end Core
end Epidemica
