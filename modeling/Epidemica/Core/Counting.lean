import Epidemica.Core.Replication
import Epidemica.Nodes.LayerNodes

/-!
# `Core.Counting` — every tenth write is sent down

`m_WriteCount` is advanced and reset on two paths: by the client thread for the own writes, and by the
handler for those of the other nodes. `Counted` says for each position of the client thread how the
count stands to the number of writes the node has executed, and how many snapshots a node of the layer
below has been sent. The two paths stay in step because no write is handled while the client thread is
in its critical section.
-/

namespace Epidemica

open Network Transition

/-- `v_k`: the version after the first `k` writes of a list. -/
def versionAt (l : List (Int × TransactionData)) (k : Nat) : Int32 :=
  (Transaction.executeAll ⟨0⟩ ((l.take k).map Prod.snd)).version

/-- `v_10, v_20, …`, the first `m` of them. -/
def snapshots (l : List (Int × TransactionData)) (m : Nat) : List Int32 :=
  (List.range m).map fun i => versionAt l (10 * (i + 1))

section
variable {l r : List (Int × TransactionData)} {k m : Nat}

theorem versionAt_append (hk : k ≤ l.length) : versionAt (l ++ r) k = versionAt l k := by
  unfold versionAt
  rw [List.take_append_of_le_length hk]

theorem versionAt_length :
    versionAt l l.length = (Transaction.executeAll ⟨0⟩ (l.map Prod.snd)).version := by
  unfold versionAt
  rw [List.take_length]

@[simp] theorem length_snapshots : (snapshots l m).length = m := by
  simp [snapshots]

theorem snapshots_succ : snapshots l (m + 1) = snapshots l m ++ [versionAt l (10 * (m + 1))] := by
  simp [snapshots, List.range_succ]

/-- Later writes do not change the snapshots of earlier ones. -/
theorem snapshots_append (hm : 10 * m ≤ l.length) : snapshots (l ++ r) m = snapshots l m := by
  apply List.map_congr_left
  intro i hi
  apply versionAt_append
  have hi := List.mem_range.mp hi
  omega

/-- The beginning of a list of snapshots is a list of snapshots. -/
theorem snapshots_begin {vs ws : List Int32} (h : vs ++ ws = snapshots l m) :
    vs.length ≤ m ∧ vs = snapshots l vs.length := by
  have hlen : vs.length + ws.length = m := by
    rw [← List.length_append, h, length_snapshots]
  have htake : vs = (snapshots l m).take vs.length := by
    rw [← h, List.take_left']
    rfl
  have hle : vs.length ≤ m := by omega
  refine ⟨hle, ?_⟩
  rw [snapshots, ← List.map_take, List.take_range, Nat.min_eq_left hle] at htake
  exact htake

/-- Counting from `v_0 = 0`, the `i`-th snapshot is `v_(10 i)`. -/
theorem snapshots_getD {i : Nat} (hi : i ≤ m) :
    (0 :: snapshots l m).getD i 0 = versionAt l (10 * i) := by
  cases i with
  | zero => rfl
  | succ i =>
    have hi : i < m := hi
    rw [List.getD_cons_succ, List.getD_eq_getElem?_getD, snapshots, List.getElem?_map,
      List.getElem?_range hi]
    rfl

end

namespace CoreNode

/-- How `m_WriteCount` and the number `m` of snapshots sent to `b` stand to the writes executed. Between
    the execution of an own write and the reset of the count they are behind. -/
def Counted (b : Int) (applied : List (Int × TransactionData)) (m : Nat) (n : CoreNode) : Prop :=
  match n.mutex.pc.isInCS, n.cs with
  | true, .countWrite =>
    0 < applied.length ∧ n.writeCount = ((applied.length - 1) % 10 : Nat) ∧
      m = (applied.length - 1) / 10
  | true, .testCount =>
    0 < applied.length ∧ n.writeCount = ((applied.length - 1) % 10 : Nat) + 1 ∧
      m = (applied.length - 1) / 10
  | true, .readVersion => 10 * (m + 1) = applied.length
  | true, .sendSet v todo =>
    todo.Nodup ∧ v = versionAt applied applied.length ∧
      10 * (if b ∈ todo then m + 1 else m) = applied.length
  | true, .resetCount => 10 * m = applied.length
  | _, _ => n.writeCount = (applied.length % 10 : Nat) ∧ m = applied.length / 10

variable {L : Layers} {b : Int} {n : CoreNode} {applied : List (Int × TransactionData)} {m : Nat}

theorem Counted.le (h : Counted b applied m n) : 10 * m ≤ applied.length := by
  unfold Counted at h
  split at h
  · omega
  · omega
  · omega
  · split at h <;> omega
  · omega
  · omega

theorem counted_of_not_inCS (hin : n.mutex.pc.isInCS = false) :
    Counted b applied m n ↔ n.writeCount = (applied.length % 10 : Nat) ∧ m = applied.length / 10 := by
  simp [Counted, hin]

/-- The mutex sends no `SET`. -/
theorem requester_set? {peers : List Int} {me : Int} {n : MutexNode} :
    ∀ o ∈ (n.requester peers me).2, o.2.set? = none := by
  obtain ⟨m, pc⟩ := n
  rcases pc with _ | _ | _ | ⟨_, _ | _⟩ | _ | _ | _ | ⟨_, _, _ | _⟩ <;>
    simp only [MutexNode.requester] <;> (try split) <;> simp [Msg.set?]

theorem setsIn_eq_nil {l : List Msg} (h : ∀ m ∈ l, m.set? = none) : setsIn l = [] := by
  simpa [setsIn, List.filterMap_eq_nil_iff] using h

/-- A write is no `SET`. -/
theorem msg_set? {d : TransactionData} (hd : d.type.isWrite = true) : d.msg.set? = none := by
  cases htype : d.type <;>
    simp_all [TransactionData.msg, TransactionType.tag, Msg.set?, TransactionType.isWrite]

/-- A statement between `requestCS` and `releaseCS`: the own write is executed, counted, and followed by
    a snapshot if it was a tenth one. -/
theorem Counted.critical (hb : b ∈ L LAYER_ONE) (hnd : (L LAYER_ONE).Nodup)
    (hwrite : n.trans.type.isWrite = true)
    (hversion : n.transaction = Transaction.executeAll ⟨0⟩ (applied.map Prod.snd))
    (hin : n.mutex.pc.isInCS = true) (h : Counted b applied m n) (d : Int × TransactionData) :
    ∃ m', snapshots (applied ++ if n.cs = .execute then [d] else []) m' =
        snapshots applied m ++ setsIn (select b (n.critical L).2) ∧
      Counted b (applied ++ if n.cs = .execute then [d] else []) m' (n.critical L).1 := by
  have hle := h.le
  obtain ⟨mu, cs, tr, ver, wc, fin⟩ := n
  have hin : mu.pc.isInCS = true := hin
  rcases cs with ⟨_ | ⟨x, todo⟩⟩ | _ | _ | _ | _ | ⟨v, _ | ⟨c, todo⟩⟩ | _ | _ | _ | _ <;>
    simp only [Counted, hin] at h
  case sendWrite.nil =>
    exact ⟨m, by simp [CoreNode.critical], by simpa [CoreNode.critical, Counted, hin] using h⟩
  case sendWrite.cons =>
    refine ⟨m, ?_, by simpa [CoreNode.critical, Counted, hin] using h⟩
    -- the write itself is no snapshot
    have hno : tr.msg.set? = none := msg_set? hwrite
    by_cases hxb : x = b <;> simp [CoreNode.critical, hxb, hno]
  case execute =>
    refine ⟨m, by simp [CoreNode.critical, snapshots_append hle], ?_⟩
    simpa [CoreNode.critical, Counted, hin] using h
  case countWrite =>
    refine ⟨m, by simp [CoreNode.critical], ?_⟩
    simp only [CoreNode.critical, Counted, hin, if_neg, reduceCtorEq, not_false_eq_true, List.append_nil]
    omega
  case testCount =>
    refine ⟨m, by simp [CoreNode.critical], ?_⟩
    -- the own write is counted: at ten the snapshot is sent, below ten the count stays
    by_cases hten : wc ≥ UPDATE_COUNT
    · simp only [CoreNode.critical, Counted, hin, if_pos hten, if_neg, reduceCtorEq, not_false_eq_true,
        List.append_nil]
      have hten : wc ≥ 10 := hten
      omega
    · simp only [CoreNode.critical, Counted, hin, if_neg hten, if_neg, reduceCtorEq, not_false_eq_true,
        List.append_nil]
      have hten : ¬ wc ≥ 10 := hten
      omega
  case readVersion =>
    refine ⟨m, by simp [CoreNode.critical], ?_⟩
    -- the version read is that after all writes executed, whose number is a multiple of ten
    have hversion : ver = Transaction.executeAll ⟨0⟩ (applied.map Prod.snd) := hversion
    simp only [CoreNode.critical, Counted, hin, if_neg, reduceCtorEq, not_false_eq_true,
      List.append_nil, if_pos hb]
    exact ⟨hnd, by rw [hversion, versionAt_length], h⟩
  case sendSet.nil =>
    refine ⟨m, by simp [CoreNode.critical], ?_⟩
    simpa [CoreNode.critical, Counted, hin] using h.2.2
  case sendSet.cons =>
    obtain ⟨hndt, hv, hk⟩ := h
    obtain ⟨hct, hndt⟩ := List.nodup_cons.mp hndt
    by_cases hcb : c = b
    · -- the snapshot leaves for `b`
      subst hcb
      rw [if_pos List.mem_cons_self] at hk
      refine ⟨m + 1, ?_, ?_⟩
      · simp [CoreNode.critical, snapshots_succ, hv, hk]
      · simp only [CoreNode.critical, Counted, hin, if_neg, reduceCtorEq, not_false_eq_true,
          List.append_nil, if_neg hct]
        exact ⟨hndt, hv, hk⟩
    · refine ⟨m, by simp [CoreNode.critical, hcb], ?_⟩
      have hmem : (b ∈ c :: todo) = (b ∈ todo) := by simp [Ne.symm hcb]
      simp only [hmem] at hk
      simp only [CoreNode.critical, Counted, hin, if_neg, reduceCtorEq, not_false_eq_true,
        List.append_nil]
      exact ⟨hndt, hv, hk⟩
  case resetCount =>
    refine ⟨m, by simp [CoreNode.critical], ?_⟩
    simp only [CoreNode.critical, Counted, hin, if_neg, reduceCtorEq, not_false_eq_true, List.append_nil]
    omega
  case waitReady =>
    by_cases hfull : fin = (L CORE_LAYER).length
    · exact ⟨m, by simp [CoreNode.critical, hfull], by simpa [CoreNode.critical, hfull, Counted, hin] using h⟩
    · exact ⟨m, by simp [CoreNode.critical, hfull], by simpa [CoreNode.critical, hfull, Counted, hin] using h⟩
  case resetFinished =>
    exact ⟨m, by simp [CoreNode.critical], by simpa [CoreNode.critical, Counted, hin] using h⟩
  case done => exact ⟨m, by simp [CoreNode.critical], by simpa [CoreNode.critical, Counted, hin] using h⟩

/-- A statement of the client thread. -/
theorem Counted.requester (me : Int) (hb : b ∈ L LAYER_ONE) (hnd : (L LAYER_ONE).Nodup)
    (hwrite : n.trans.type.isWrite = true)
    (hversion : n.transaction = Transaction.executeAll ⟨0⟩ (applied.map Prod.snd))
    (h : Counted b applied m n) (d : Int × TransactionData) :
    ∃ m', snapshots (applied ++ if n.mutex.pc.isInCS = true ∧ n.cs = .execute then [d] else []) m' =
        snapshots applied m ++ setsIn (select b (n.requester L me).2) ∧
      Counted b (applied ++ if n.mutex.pc.isInCS = true ∧ n.cs = .execute then [d] else []) m'
        (n.requester L me).1 := by
  by_cases hcs : n.mutex.pc.isInCS = true ∧ n.cs ≠ .done
  · unfold CoreNode.requester
    rw [if_pos hcs]
    simpa only [hcs.1, true_and] using h.critical hb hnd hwrite hversion hcs.1 d
  · unfold CoreNode.requester
    rw [if_neg hcs, if_neg]
    · refine ⟨m, ?_, ?_⟩
      · rw [setsIn_eq_nil fun o ho => requester_set? _ (mem_select.mp ho)]
        simp
      · rw [List.append_nil]
        -- in step before, and in step at the return of `requestCS` or in `releaseCS`
        have hold : n.writeCount = (applied.length % 10 : Nat) ∧ m = applied.length / 10 := by
          cases hin : n.mutex.pc.isInCS with
          | false => exact (counted_of_not_inCS hin).mp h
          | true =>
            have hdone : n.cs = .done := by simpa [hin] using hcs
            simpa [Counted, hin, hdone] using h
        cases hin' : (n.mutex.requester (L CORE_LAYER) me).1.pc.isInCS <;> simpa [Counted, hin'] using hold
    · rintro ⟨hin, hexec⟩
      exact hcs ⟨hin, by simp [hexec]⟩

/-- A handled message: a write is executed and counted, and followed by a snapshot if it was a tenth one.
    The client thread must not be between `requestCS` and `releaseCS`. -/
theorem Counted.handleMsg (me : Int) (x : Msg) (src : Int) (hb : b ∈ L LAYER_ONE)
    (hnd : (L LAYER_ONE).Nodup)
    (hversion : n.transaction = Transaction.executeAll ⟨0⟩ (applied.map Prod.snd))
    (hout : x.write?.isSome = true → n.mutex.pc.isInCS = false) (h : Counted b applied m n) :
    ∃ m', snapshots (applied ++ x.write?.toList.map fun d => (src, d)) m' =
        snapshots applied m ++ setsIn (select b (n.handleMsg L me x.value src x.tag).2) ∧
      Counted b (applied ++ x.write?.toList.map fun d => (src, d)) m'
        (n.handleMsg L me x.value src x.tag).1 := by
  have hhandled := handleMsg_handled L me n x src
  generalize n.handleMsg L me x.value src x.tag = r at hhandled
  cases hhandled with
  | ready _ hw => exact ⟨m, by simp [hw], by simpa [hw, Counted] using h⟩
  | read _ hw _ => exact ⟨m, by simp [hw], by simpa [hw, Counted] using h⟩
  | mutex _ hw _ =>
    refine ⟨m, ?_, by simpa [hw, Counted] using h⟩
    -- the mutex answers with an `ACK` at most
    rw [setsIn_eq_nil, hw]
    · simp
    · intro o ho
      rw [MutexNode.ack_of_mem_select ho]
      simp [Msg.set?]
  | write d _ hw =>
    have hin := hout (by simp [hw])
    obtain ⟨hcount, hm⟩ := (counted_of_not_inCS hin).mp h
    have hready : setsIn (select b [(src, (⟨.ready, x.value⟩ : Msg))]) = [] := by
      by_cases hsb : src = b <;> simp [hsb, Msg.set?]
    have hsets : ∀ v : Int32, select b (broadcastMsg L .set v.toInt LAYER_ONE) = [⟨.set, v.toInt⟩] := by
      intro v
      unfold broadcastMsg
      rw [select_broadcast b _ hnd, if_pos hb]
    have hnext : n.transaction.execute d =
        Transaction.executeAll ⟨0⟩ ((applied ++ [(src, d)]).map Prod.snd) := by
      rw [List.map_append, Transaction.executeAll_append, ← hversion]
      rfl
    rw [hw, handleWrite_outs]
    simp only [Option.toList_some, List.map_cons, List.map_nil]
    by_cases hten : n.writeCount + 1 ≥ 10
    · -- the tenth write since the last snapshot
      have hk : 10 * (m + 1) = (applied ++ [(src, d)]).length := by
        simp only [List.length_append, List.length_singleton]
        omega
      refine ⟨m + 1, ?_, ?_⟩
      · rw [if_pos hten, select_append, setsIn_append, hready, hsets, snapshots_succ,
          snapshots_append h.le, hk, versionAt_length, ← hnext]
        simp
      · rw [counted_of_not_inCS (by simpa using hin)]
        simp only [handleWrite, if_pos hten]
        omega
    · refine ⟨m, ?_, ?_⟩
      · rw [if_neg hten, select_append, setsIn_append, hready, snapshots_append h.le]
        simp
      · rw [counted_of_not_inCS (by simpa using hin)]
        simp only [handleWrite, if_neg hten, List.length_append, List.length_singleton]
        omega

end CoreNode

end Epidemica
