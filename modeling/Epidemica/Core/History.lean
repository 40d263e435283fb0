import Epidemica.Core.Ready

/-!
# `Core.History` — which writes have been executed where

For a writer `w` and a node `x`, `outstanding` holds the write of `w` that `x` is still going to execute.
What `x` has executed of `w` and what is outstanding are together the writes with which `w` entered its
critical section (`applied_outstanding`), and the version of `x` is the fold of what it has executed
(`version_eq`).

The main result, `write_everywhere`: a client thread gets past the wait for the `READY`s only when every
node has executed exactly the writes submitted to it so far.
-/

namespace Epidemica

open Network Transition

namespace CoreNode

/-- `ExecuteTransaction` has been called and `requestCS` has not returned. -/
def requesting (n : CoreNode) : Bool :=
  match n.mutex.pc with
  | .getValue | .store _ | .sendRequest _ _ | .wait _ => true
  | _ => false

/-- The write for which `requestCS` has not returned. -/
def toEnter (n : CoreNode) : List TransactionData := if n.requesting then [n.trans] else []

/-- The own write, from the return of `requestCS` to its execution. -/
def toRun (n : CoreNode) : List TransactionData :=
  if n.mutex.pc.isInCS then
    match n.cs with
    | .sendWrite _ | .execute => [n.trans]
    | _ => []
  else []

/-- The own write, as long as it has not been sent to `x`. -/
def toSend (n : CoreNode) (x : Int) : List TransactionData :=
  if x ∈ n.pending?.getD [] then [n.trans] else []

/-- The write in progress, if any, is past the wait for the `READY`s. -/
def finished (n : CoreNode) : Bool :=
  match n.mutex.pc with
  | .inCS _ => n.cs = .resetFinished ∨ n.cs = .done
  | .idle | .getRelease _ | .sendRelease _ _ _ => true
  | _ => false

/-- The first peer has been sent the write and `m_FinishedNodes` has not been reset. -/
def counting (peers : List Int) (n : CoreNode) : Prop := ∃ todo, n.pending? = some todo ∧ todo ≠ peers

/-! ## The client thread -/

variable {L : Layers} {me x : Int} {n : CoreNode}

theorem enters_of_inCS (L : Layers) (me : Int) (h : n.mutex.pc.isInCS = true) :
    n.enters L me = false := by
  obtain ⟨t, hpc⟩ := Pc.isInCS_iff.mp h
  simp [enters, hpc, Pc.isWait]

/-- `requestCS` returns in the step that enters, and in no other. -/
theorem requester_toEnter (L : Layers) (me : Int) (hidle : n.idle = false) :
    n.toEnter = (if n.enters L me then [n.trans] else []) ++ (n.requester L me).1.toEnter := by
  by_cases hcs : n.mutex.pc.isInCS = true ∧ n.cs ≠ .done
  · unfold requester
    rw [if_pos hcs]
    obtain ⟨t, hpc⟩ := Pc.isInCS_iff.mp hcs.1
    simp [toEnter, requesting, enters_of_inCS L me hcs.1, critical_frame, hpc]
  · unfold requester
    rw [if_neg hcs]
    obtain ⟨⟨m, pc⟩, cs, tr, d, wc, fin⟩ := n
    rcases pc with _ | _ | _ | ⟨_, _ | _⟩ | _ | _ | _ | ⟨_, _, _ | _⟩ <;>
      simp only [MutexNode.requester]
    case idle => exact absurd hidle (by simp [idle])
    -- the one statement that may enter
    case wait =>
      cases htest : m.okeyCS (L CORE_LAYER) me <;>
        simp [toEnter, requesting, enters, Pc.isWait, htest]
    all_goals simp [toEnter, requesting, enters, Pc.isWait]

/-- The own write is executed once, after the return of `requestCS`. -/
theorem requester_toRun (L : Layers) (me : Int) :
    n.toRun ++ (if n.enters L me then [n.trans] else []) =
      (if n.mutex.pc.isInCS = true ∧ n.cs = .execute then [n.trans] else []) ++
        (n.requester L me).1.toRun := by
  by_cases hcs : n.mutex.pc.isInCS = true ∧ n.cs ≠ .done
  · unfold requester
    rw [if_pos hcs]
    rw [enters_of_inCS L me hcs.1]
    have hin := hcs.1
    obtain ⟨m, cs, tr, d, wc, fin⟩ := n
    rcases cs with ⟨_ | _⟩ | _ | _ | _ | _ | ⟨_, _ | _⟩ | _ | _ | _ | _
    case testCount => by_cases hten : wc ≥ UPDATE_COUNT <;> simp [critical, toRun, hten]
    case waitReady => by_cases hfull : fin = (L CORE_LAYER).length <;> simp [critical, toRun, hfull]
    all_goals simp_all [critical, toRun]
  · unfold requester
    rw [if_neg hcs]
    cases hin : n.mutex.pc.isInCS with
    | true =>
      have hdone : n.cs = .done := by simpa [hin] using hcs
      obtain ⟨t, hpc⟩ := Pc.isInCS_iff.mp hin
      simp [toRun, enters_of_inCS L me hin, hdone, hpc, MutexNode.requester, Pc.isInCS]
    | false =>
      have henter : n.enters L me = (n.mutex.requester (L CORE_LAYER) me).1.pc.isInCS :=
        (MutexNode.requester_isInCS (L CORE_LAYER) me hin).symm
      cases hin' : (n.mutex.requester (L CORE_LAYER) me).1.pc.isInCS <;>
        simp [toRun, henter, hin, hin']

/-- The own write is sent once to each peer, after the return of `requestCS`. -/
theorem requester_toSend (me : Int) (hx : x ∈ L CORE_LAYER) (hnd : ∀ todo, n.pending? = some todo → todo.Nodup)
    (hwrite : n.pending?.isSome = true → n.trans.type.isWrite = true) :
    n.toSend x ++ (if n.enters L me then [n.trans] else []) =
      writesIn (select x (n.requester L me).2) ++ (n.requester L me).1.toSend x := by
  have hmove : Move L me n (n.requester L me) := requester_move
  generalize n.requester L me = r at hmove ⊢
  unfold toSend
  cases hmove with
  | enter henter _ hpend hpend' _ htrans hout => simp [henter, hpend, hpend', htrans, hout, hx]
  | send y todo henter hpend hpend' _ htrans hout =>
    have hwr : n.trans.msg.write? = some n.trans :=
      TransactionData.write?_msg (hwrite (by simp [hpend]))
    -- each peer stands once in the list, so the write goes to it once
    have hyt := (List.nodup_cons.mp (hnd _ hpend)).1
    by_cases hxy : x = y
    · subst hxy
      simp [henter, hpend, hpend', hout, hwr, hyt]
    · simp [henter, hpend, hpend', htrans, hout, hxy, Ne.symm hxy]
  | reset _ henter hpend hpend' _ _ hout => simp [henter, hpend, hpend', hout]
  | stay henter hpend _ htrans hout =>
    rw [writesIn_eq_nil fun o ho => (hout _ (mem_select.mp ho)).1]
    simp [henter, hpend, htrans]

/-- The call itself executes no write. -/
theorem executeTransaction_toRun (L : Layers) (me : Int) (d : TransactionData)
    (hidle : n.idle = true) : n.toRun = [] ∧ (n.executeTransaction L me d).toRun = [] := by
  have hpc : n.mutex.pc = .idle := by simpa [idle] using hidle
  unfold executeTransaction
  split <;> simp [toRun, MutexNode.requester, hpc, Pc.isInCS]

/-- What a statement of the client thread does to the version. -/
theorem requester_transaction (L : Layers) (me : Int) :
    (n.requester L me).1.transaction =
      if n.mutex.pc.isInCS = true ∧ n.cs = .execute then n.transaction.execute n.trans
      else n.transaction := by
  by_cases hcs : n.mutex.pc.isInCS = true ∧ n.cs ≠ .done
  · unfold requester
    rw [if_pos hcs]
    have hin := hcs.1
    obtain ⟨m, cs, tr, d, wc, fin⟩ := n
    rcases cs with ⟨_ | _⟩ | _ | _ | _ | _ | ⟨_, _ | _⟩ | _ | _ | _ | _
    case waitReady => by_cases hfull : fin = (L CORE_LAYER).length <;> simp [critical, hfull]
    all_goals simp_all [critical]
  · unfold requester
    rw [if_neg hcs, if_neg]
    rintro ⟨hin, hexec⟩
    exact hcs ⟨hin, by simp [hexec]⟩

/-- What a message does to the version. -/
theorem handleMsg_transaction (L : Layers) (me : Int) (m : Msg) (src : Int) :
    (n.handleMsg L me m.value src m.tag).1.transaction =
      n.transaction.executeAll m.write?.toList := by
  have h := handleMsg_handled L me n m src
  generalize n.handleMsg L me m.value src m.tag = r at h ⊢
  cases h with
  | write d _ hw => simp [hw]
  | ready _ hw | read _ hw _ | mutex _ hw _ => simp [hw]

end CoreNode

namespace Core

/-- The write of `w` that `x` is still going to execute, if there is one. -/
def outstanding (s : State) (w x : Int) : List TransactionData :=
  if x = w then (s.node w).toRun else writesIn (s.chan w x) ++ (s.node w).toSend x

section
variable {net : Mesh} {s t : State} {w x : Int}

/-- The write of `w` is at most once on its way to `x`. -/
theorem ReadyInv.one_way (h : ReadyInv net w s) (hx : x ∈ net.peers w) :
    (writesIn (s.chan w x)).length + ((s.node w).toSend x).length ≤ 1 := by
  -- what is in flight and what is to be sent exclude each other
  have hle : (writesIn (s.chan w x)).length ≤ inflight s w x := Nat.le_add_right _ _
  cases hpend : (s.node w).pending? with
  | none =>
    have hz := (h.quiet hpend).2 x hx
    simp only [CoreNode.toSend, hpend, Option.getD_none, List.not_mem_nil, if_false, List.length_nil]
    omega
  | some todo =>
    obtain ⟨-, -, -, hz, hone, -⟩ := h.busy todo hpend
    simp only [CoreNode.toSend, hpend, Option.getD_some]
    split
    · have hzx := hz x ‹_›
      simp only [List.length_singleton]
      omega
    · have hox := hone x hx
      simp only [List.length_nil]
      omega

/-- Nothing of a thread that is past its wait is outstanding. -/
theorem ReadyInv.finished (h : ReadyInv net w s) (hfin : (s.node w).finished = true)
    (hx : x = w ∨ x ∈ net.peers w) : outstanding s w x = [] := by
  -- before the reset the count is full, after it nothing is in progress
  have hpend : (s.node w).pending?.getD [] = [] ∧ ∀ y ∈ net.peers w, inflight s w y = 0 := by
    by_cases hr : (s.node w).resetting
    · have hsome : (s.node w).pending? = some [] := by
        obtain ⟨hin, hcs⟩ := hr
        simp [CoreNode.pending?, hin, hcs]
      exact ⟨by simp [hsome], (h.inflight_eq_zero hsome (h.full hr)).2⟩
    · have hnone : (s.node w).pending? = none := by
        rw [← Option.not_isSome_iff_eq_none, CoreNode.pending?_isSome]
        rintro ⟨hin, hcs⟩
        obtain ⟨u, hpc⟩ := Pc.isInCS_iff.mp hin
        have hcs' : (s.node w).cs = .resetFinished ∨ (s.node w).cs = .done := by
          simpa [CoreNode.finished, hpc] using hfin
        exact hcs'.elim (fun hcs' => hr ⟨hin, hcs'⟩) hcs
      exact ⟨by simp [hnone], (h.quiet hnone).2⟩
  unfold outstanding
  split
  · unfold CoreNode.toRun
    split
    · rename_i hin
      obtain ⟨u, hpc⟩ := Pc.isInCS_iff.mp hin
      have hcs : (s.node w).cs = .resetFinished ∨ (s.node w).cs = .done := by
        simpa [CoreNode.finished, hpc] using hfin
      rcases hcs with hcs | hcs <;> rw [hcs]
    · rfl
  · rename_i hxw
    have hz : (writesIn (s.chan w x)).length + readysIn (s.chan x w) = 0 :=
      hpend.2 x (hx.resolve_left hxw)
    have hnil : writesIn (s.chan w x) = [] := List.eq_nil_of_length_eq_zero (by omega)
    simp [hnil, CoreNode.toSend, hpend.1]

/-- Handling a message takes the write it carries, if any, out of what is outstanding. -/
theorem outstanding_handle {p q : Int} {i : Nat} {m : Msg} (hw : w ∈ net.cores) (hx : x ∈ net.cores)
    (hp : p ∈ net.cores) (hqp : q ≠ p) (hm : (s.chan q p)[i]? = some m) (hready : ReadyInv net w s) :
    outstanding s w x = (if x = p ∧ w = q then m.write?.toList else []) ++
      outstanding ((s.take q p i).put p ((s.node p).handleMsg (net.layers p) p m.value q m.tag)) w x := by
  obtain ⟨hpend, htrans, hcs, hpc⟩ :=
    CoreNode.handleMsg_pending? (L := net.layers p) (n := s.node p) p m q
  obtain ⟨hnone, -⟩ := CoreNode.handleMsg_select (L := net.layers p) (n := s.node p) p m q x
    (fun hb => net.below p hp x hb hx)
  by_cases hxw : x = w
  · subst hxw
    by_cases hxp : x = p
    · subst hxp
      simp [outstanding, CoreNode.toRun, htrans, hcs, hpc, hqp.symm]
    · simp [outstanding, hxp]
  · -- a handler sends no write, and moves no client thread
    have hsend : (((s.take q p i).put p
        ((s.node p).handleMsg (net.layers p) p m.value q m.tag)).node w).toSend x =
        (s.node w).toSend x := by
      by_cases hwp : w = p
      · subst hwp
        simp [CoreNode.toSend, hpend, htrans]
      · simp [hwp]
    by_cases hat : x = p ∧ w = q
    · obtain ⟨rfl, rfl⟩ := hat
      have hone := hready.one_way ((net.mem_peers hw).mpr ⟨hx, hxw⟩)
      obtain ⟨l₁, l₂, hl, he⟩ := writesIn_eraseIdx hm
      rw [hl] at hone
      cases hwr : m.write? with
      | none => simp [outstanding, hxw, hqp, hl, he, hwr]
      | some d =>
        -- nothing else of `w` is on its way to `x`
        simp only [hwr, Option.toList_some, List.length_append, List.length_singleton] at hone
        obtain rfl : l₁ = [] := List.eq_nil_of_length_eq_zero (by omega)
        simp [outstanding, hxw, hqp, hl, he, hwr]
    · have hchan : writesIn (((s.take q p i).put p
          ((s.node p).handleMsg (net.layers p) p m.value q m.tag)).chan w x) =
          writesIn (s.chan w x) := by
        have hat' : ¬ (w = q ∧ x = p) := fun h => hat h.symm
        simp only [put_chan, take_chan, if_neg hat']
        split <;> simp [hnone]
      unfold outstanding
      rw [if_neg hxw, if_neg hxw, if_neg hat, hsend, hchan]
      rfl

/-- The step lemma of the history: what enters becomes outstanding, what is executed was. -/
theorem outstanding_step {G : Guard State Label} (hG : ∀ s l, G s l → clients s l)
    (hs : Reachable (system net) G s) (hw : w ∈ net.cores) (hx : x ∈ net.cores) {l : Label}
    (hst : (system net).step s l = some t) :
    outstanding s w x ++ select w (entering net.layers s l) =
      select w (executing s x l) ++ outstanding t w x := by
  have hready := readyInv hG hw hs
  have hpeer : x ≠ w → x ∈ net.peers w := fun hxw => (net.mem_peers hw).mpr ⟨hx, hxw⟩
  cases l with
  | submit p d =>
    obtain ⟨-, hidle, rfl⟩ := step_submit hst
    by_cases hwp : w = p
    · subst hwp
      obtain ⟨hpend, hpend', -⟩ := executeTransaction_pending? (w := w) (net.layers w) d hidle
      have hrun := CoreNode.executeTransaction_toRun (net.layers w) w d hidle
      simp [entering, executing, outstanding, CoreNode.toSend, hpend, hpend', hrun]
    · simp [entering, executing, outstanding, hwp]
  | requester p =>
    obtain ⟨-, hidle, rfl⟩ := step_requester hst
    by_cases hwp : w = p
    · subst hwp
      have henter : select w (entering net.layers s (.requester w)) =
          if (s.node w).enters (net.layers w) w then [(s.node w).trans] else [] := by
        simp only [entering]
        split <;> simp
      by_cases hxw : x = w
      · subst hxw
        have hexec : select x (executing s x (.requester x)) =
            if (s.node x).mutex.pc.isInCS = true ∧ (s.node x).cs = .execute then [(s.node x).trans]
            else [] := by
          simp only [executing, true_and]
          split <;> simp
        rw [henter, hexec]
        simpa [outstanding] using CoreNode.requester_toRun (n := s.node x) (net.layers x) x
      · have hexec : executing s x (.requester w) = [] := by simp [executing, hxw]
        have hsend := CoreNode.requester_toSend (L := net.layers w) (x := x) (n := s.node w) w
          (hpeer hxw) (fun todo hp => (hready.busy todo hp).1) fun _ => trans_isWrite hG hs w hidle
        rw [henter, hexec]
        simpa [outstanding, hxw] using hsend
    · have henter : select w (entering net.layers s (.requester p)) = [] := by
        simp only [entering]
        split <;> simp [Ne.symm hwp]
      have hexec : select w (executing s x (.requester p)) = [] := by
        simp only [executing]
        split <;> simp [Ne.symm hwp]
      simp [henter, hexec, outstanding, hwp]
  | handle p q i =>
    obtain ⟨hp, hq, m, hm, rfl⟩ := step_handle hst
    have hqp : q ≠ p := ((net.mem_peers hp).mp hq).2
    have hexec : select w (executing s x (.handle p q i)) =
        if x = p ∧ w = q then m.write?.toList else [] := by
      by_cases hxp : x = p <;> simp [executing, hm, hxp, select_map, eq_comm]
    rw [hexec, outstanding_handle hw hx hp hqp hm hready]
    simp [entering]
  | drain p b =>
    obtain ⟨hb, -, rfl⟩ := step_drain net.layers hst
    have hxb : x ≠ b := fun hxb => hb (hxb ▸ hx)
    simp [entering, executing, outstanding, hxb]

/-- A node's version moves by the writes it executes. -/
theorem version_step {l : Label} (hst : (system net).step s l = some t) :
    (t.node x).transaction =
      (s.node x).transaction.executeAll ((executing s x l).map Prod.snd) := by
  cases l with
  | submit p d =>
    obtain ⟨-, -, rfl⟩ := step_submit hst
    by_cases hxp : x = p
    · subst hxp
      simp only [put_node, if_pos, CoreNode.executeTransaction, executing, List.map_nil,
        Transaction.executeAll_nil]
      split
      · rename_i hread
        exact Transaction.execute_of_not_write _ (by simp [hread, TransactionType.isWrite])
          (by simp [hread])
      · rfl
    · simp [executing, hxp]
  | requester p =>
    obtain ⟨-, -, rfl⟩ := step_requester hst
    by_cases hxp : x = p
    · subst hxp
      simp only [put_node, if_pos, CoreNode.requester_transaction, executing, true_and]
      split <;> simp
    · simp [executing, hxp]
  | handle p q i =>
    obtain ⟨-, -, m, hm, rfl⟩ := step_handle hst
    by_cases hxp : x = p
    · subst hxp
      simp [executing, hm, CoreNode.handleMsg_transaction, Function.comp_def]
    · simp [executing, hxp]
  | drain p b =>
    obtain ⟨-, -, rfl⟩ := step_drain net.layers hst
    simp [executing]

/-- What is submitted is being asked for until it enters. -/
theorem toEnter_step {l : Label} (hst : (system net).step s l = some t) :
    (s.node w).toEnter ++ select w (submitting l) =
      select w (entering net.layers s l) ++ (t.node w).toEnter := by
  cases l with
  | submit p d =>
    obtain ⟨-, hidle, rfl⟩ := step_submit hst
    have hpc : (s.node p).mutex.pc = .idle := by simpa [CoreNode.idle] using hidle
    by_cases hwp : w = p
    · subst hwp
      by_cases hread : d.type = .read
      · simp [submitting, entering, CoreNode.executeTransaction, CoreNode.toEnter,
          CoreNode.requesting, hpc, hread]
      · simp [submitting, entering, CoreNode.executeTransaction, CoreNode.toEnter,
          CoreNode.requesting, MutexNode.requester, hpc, hread]
    · have hsub : select w (submitting (.submit p d)) = [] := by
        simp only [submitting]
        split <;> simp [Ne.symm hwp]
      simp [hsub, entering, hwp]
  | requester p =>
    obtain ⟨-, hidle, rfl⟩ := step_requester hst
    by_cases hwp : w = p
    · subst hwp
      have henter : select w (entering net.layers s (.requester w)) =
          if (s.node w).enters (net.layers w) w then [(s.node w).trans] else [] := by
        simp only [entering]
        split <;> simp
      rw [henter]
      simpa [submitting] using CoreNode.requester_toEnter (net.layers w) w hidle
    · have henter : select w (entering net.layers s (.requester p)) = [] := by
        simp only [entering]
        split <;> simp [Ne.symm hwp]
      simp [submitting, henter, hwp]
  | handle p q i =>
    obtain ⟨-, -, m, -, rfl⟩ := step_handle hst
    by_cases hwp : w = p
    · subst hwp
      obtain ⟨-, htrans, -, hpc⟩ :=
        CoreNode.handleMsg_pending? (L := net.layers w) (n := s.node w) w m q
      have hreq : ((s.node w).handleMsg (net.layers w) w m.value q m.tag).1.requesting =
          (s.node w).requesting := by simp only [CoreNode.requesting, hpc]
      simp [submitting, entering, CoreNode.toEnter, hreq, htrans]
    · simp [submitting, entering, hwp]
  | drain p b =>
    obtain ⟨-, -, rfl⟩ := step_drain net.layers hst
    simp [submitting, entering]

end

/-- Nothing happens outside the core layer. -/
theorem node_of_not_core {net : Mesh} {G : Guard State Label} {s : State}
    (hs : Reachable (system net) G s) {w : Int} (hw : w ∉ net.cores) : s.node w = CoreNode.init w := by
  refine Reachable.invariant (I := fun s => s.node w = CoreNode.init w) ?_ ?_ hs
  · rintro s rfl
    rfl
  · intro s l t _ ih hg hst
    cases l with
    | submit p d =>
      obtain ⟨hp, -, rfl⟩ := step_submit hst
      rw [put_node, if_neg (ne_of_mem_of_not_mem hp hw).symm]
      exact ih
    | requester p =>
      obtain ⟨hp, -, rfl⟩ := step_requester hst
      rw [put_node, if_neg (ne_of_mem_of_not_mem hp hw).symm]
      exact ih
    | handle p q i =>
      obtain ⟨hp, -, m, -, rfl⟩ := step_handle hst
      rw [put_node, if_neg (ne_of_mem_of_not_mem hp hw).symm]
      exact ih
    | drain p b =>
      obtain ⟨-, -, rfl⟩ := step_drain net.layers hst
      exact ih

/-! ## Runs with their history -/

section
variable {net : Mesh} {G : Guard State Label} {y : State × Hist} {w x : Int}

/-- What `x` has executed of `w`, with what is outstanding, is what `w` has entered with. -/
theorem applied_outstanding (hG : ∀ s l, G s l → clients s l)
    (hy : Reachable (historySystem net) (Guard.past G) y) (hw : w ∈ net.cores) (hx : x ∈ net.cores) :
    select w (y.2.applied x) ++ outstanding y.1 w x = select w y.2.entered := by
  refine Reachable.invariant
    (I := fun y => select w (y.2.applied x) ++ outstanding y.1 w x = select w y.2.entered) ?_ ?_ hy
  · rintro ⟨s, h⟩ ⟨rfl, rfl⟩
    simp [init, CoreNode.init, MutexNode.init, Hist.empty, outstanding, CoreNode.toRun,
      CoreNode.toSend, CoreNode.pending?, Pc.isInCS]
  · rintro ⟨s, h⟩ l ⟨t, k⟩ hr ih hg hst
    replace hst := history_step hst
    obtain ⟨hst, rfl⟩ := hst
    -- both sides gain what enters, and what is executed only changes its place
    have hmove := outstanding_step hG hr.forget hw hx hst
    simp only [record, select_append] at ih ⊢
    rw [List.append_assoc, ← hmove, ← List.append_assoc, ih]

/-- What is submitted to `w` has entered, up to the one being asked for. -/
theorem entered_toEnter (hy : Reachable (historySystem net) (Guard.past G) y) (w : Int) :
    select w y.2.submitted = select w y.2.entered ++ (y.1.node w).toEnter := by
  refine Reachable.invariant
    (I := fun y => select w y.2.submitted = select w y.2.entered ++ (y.1.node w).toEnter) ?_ ?_ hy
  · rintro ⟨s, h⟩ ⟨rfl, rfl⟩
    simp [init, CoreNode.init, MutexNode.init, Hist.empty, CoreNode.toEnter, CoreNode.requesting]
  · rintro ⟨s, h⟩ l ⟨t, k⟩ hr ih hg hst
    replace hst := history_step hst
    obtain ⟨hst, rfl⟩ := hst
    have hmove := toEnter_step (w := w) hst
    simp only [record, select_append] at ih ⊢
    rw [ih, List.append_assoc, hmove, List.append_assoc]

/-- The version of a node is the fold of what it has executed. -/
theorem version_eq (hy : Reachable (historySystem net) (Guard.past G) y) (x : Int) :
    (y.1.node x).transaction = Transaction.executeAll ⟨0⟩ ((y.2.applied x).map Prod.snd) := by
  refine Reachable.invariant (I := fun y => (y.1.node x).transaction =
    Transaction.executeAll ⟨0⟩ ((y.2.applied x).map Prod.snd)) ?_ ?_ hy
  · rintro ⟨s, h⟩ ⟨rfl, rfl⟩
    rfl
  · rintro ⟨s, h⟩ l ⟨t, k⟩ hr ih hg hst
    replace hst := history_step hst
    obtain ⟨hst, rfl⟩ := hst
    have hmove := version_step (x := x) hst
    simp only [record, List.map_append] at ih ⊢
    -- the new writes are executed on the fold of the old ones
    rw [hmove, ih, Transaction.executeAll_append]

/-- While `ExecuteTransaction` runs, its argument is the last write submitted to the node. -/
theorem submitted_last (hy : Reachable (historySystem net) (Guard.past G) y) (w : Int) :
    (y.1.node w).idle = false → (select w y.2.submitted).getLast? = some (y.1.node w).trans := by
  refine Reachable.invariant (I := fun y => (y.1.node w).idle = false →
    (select w y.2.submitted).getLast? = some (y.1.node w).trans) ?_ ?_ hy
  · rintro ⟨s, h⟩ ⟨rfl, rfl⟩
    simp [init, CoreNode.init, MutexNode.init, CoreNode.idle]
  · rintro ⟨s, h⟩ l ⟨t, k⟩ hr ih hg hst
    replace hst := history_step hst
    obtain ⟨hst, rfl⟩ := hst
    simp only [record, select_append] at ih ⊢
    cases l with
    | submit p d =>
      obtain ⟨-, hidle, rfl⟩ := step_submit hst
      by_cases hwp : w = p
      · subst hwp
        by_cases hread : d.type = .read
        · -- a read returns at once
          simp only [put_node, if_pos, CoreNode.executeTransaction, hread]
          intro hbusy
          exact absurd (hidle.symm.trans hbusy) (by simp)
        · simp [submitting, CoreNode.executeTransaction, hread]
      · have hsub : select w (submitting (.submit p d)) = [] := by
          simp only [submitting]
          split <;> simp [Ne.symm hwp]
        simpa [hsub, hwp] using ih
    | requester p =>
      obtain ⟨-, hidle, rfl⟩ := step_requester hst
      by_cases hwp : w = p
      · subst hwp
        have hmove : CoreNode.Move (net.layers w) w (s.node w) ((s.node w).requester (net.layers w) w) :=
          CoreNode.requester_move
        have htrans : ((s.node w).requester (net.layers w) w).1.trans = (s.node w).trans := by
          cases hmove <;> assumption
        simpa [submitting, htrans] using fun _ => ih hidle
      · simpa [submitting, hwp] using ih
    | handle p q i =>
      obtain ⟨-, -, m, -, rfl⟩ := step_handle hst
      by_cases hwp : w = p
      · subst hwp
        obtain ⟨-, htrans, -, hpc⟩ :=
          CoreNode.handleMsg_pending? (L := net.layers w) (n := s.node w) w m q
        simpa [submitting, CoreNode.idle, htrans, hpc] using ih
      · simpa [submitting, hwp] using ih
    | drain p b =>
      obtain ⟨-, -, rfl⟩ := step_drain net.layers hst
      simpa [submitting] using ih

/-- A write returns only when it is everywhere. Past the wait for the `READY`s, each node has executed
    exactly the writes submitted to `w`, each once, and the last of them is the write being executed; that it
    has executed the writes listed for it means that these make up its version. `m_FinishedNodes` never passes
    the number of peers and is `0` unless a write is being sent, answered or waited for. -/
theorem write_everywhere (net : Mesh) (s : State) (h : Hist)
    (hs : Reachable (historySystem net) (Guard.past clients) (s, h)) (w : Int) (hw : w ∈ net.cores) :
    ((s.node w).finished = true → ∀ x ∈ net.cores, select w (h.applied x) = select w h.submitted) ∧
    (∀ x ∈ net.cores,
      (s.node x).transaction = Transaction.executeAll ⟨0⟩ ((h.applied x).map Prod.snd)) ∧
    ((s.node w).idle = false → (select w h.submitted).getLast? = some (s.node w).trans) ∧
    0 ≤ (s.node w).finishedNodes ∧ (s.node w).finishedNodes ≤ (net.peers w).length ∧
    (¬ (s.node w).counting (net.peers w) → (s.node w).finishedNodes = 0) := by
  have hready : ReadyInv net w s := readyInv (fun _ _ h => h) hw hs.forget
  refine ⟨?_, fun x _ => version_eq hs x, submitted_last hs w, ?_⟩
  · intro hfin x hx
    have hout : outstanding s w x = [] :=
      hready.finished hfin ((em (x = w)).imp_right fun hxw => (net.mem_peers hw).mpr ⟨hx, hxw⟩)
    -- past the wait nothing is asked for, so all that was submitted has entered
    have hreq : (s.node w).toEnter = [] := by
      simp only [CoreNode.finished] at hfin
      simp only [CoreNode.toEnter, CoreNode.requesting]
      split at hfin <;> simp_all
    have happ := applied_outstanding (fun _ _ h => h) hs hw hx
    have hsub := entered_toEnter hs w
    simp only [hout, hreq, List.append_nil] at happ hsub
    exact happ.trans hsub.symm
  · cases hpend : (s.node w).pending? with
    | none =>
      have hzero := (hready.quiet hpend).1
      exact ⟨by omega, by omega, fun _ => hzero⟩
    | some todo =>
      obtain ⟨-, -, hnn, -, -, hadd⟩ := hready.busy todo hpend
      refine ⟨hnn, by omega, ?_⟩
      intro hnot
      have hall : todo = net.peers w := by
        by_contra hne
        exact hnot ⟨todo, hpend, hne⟩
      subst hall
      omega

/-- Two nodes, one write, up to the return of the wait for its `READY`. -/
def readyRun : List Label :=
  [.submit 1 ⟨.sum, 5⟩, .requester 1, .requester 1, .requester 1, .requester 1,
    .handle 2 1 0, .handle 1 2 0, .requester 1, .requester 1, .requester 1, .handle 2 1 0,
    .requester 1, .requester 1, .requester 1, .handle 1 2 0, .requester 1]

theorem write_everywhere_readyRun :
    ∃ s h, Reachable (historySystem Mesh.two) (Guard.past clients) (s, h) ∧
      (s.node 1).resetting ∧ select 1 h.submitted = [⟨.sum, 5⟩] ∧
      select 1 (h.applied 1) = [⟨.sum, 5⟩] ∧ select 1 (h.applied 2) = [⟨.sum, 5⟩] ∧
      (s.node 1).transaction = ⟨5⟩ ∧ (s.node 2).transaction = ⟨5⟩ := by
  obtain ⟨⟨s, h⟩, -, hs, hP⟩ := Reachable.of_exec (historySystem Mesh.two) (Guard.past clients)
    (init, Hist.empty) readyRun
    (fun y => (y.1.node 1).mutex.pc.isInCS && (y.1.node 1).cs == .resetFinished &&
      select 1 y.2.submitted == [⟨.sum, 5⟩] && y.2.applied 1 == [(1, ⟨.sum, 5⟩)] &&
      y.2.applied 2 == [(1, ⟨.sum, 5⟩)]) ⟨rfl, rfl⟩ (by decide)
  simp only [Bool.and_eq_true, beq_iff_eq] at hP
  obtain ⟨⟨⟨⟨hin, hcs⟩, hsub⟩, hone⟩, htwo⟩ := hP
  obtain ⟨t, hpc⟩ := Pc.isInCS_iff.mp hin
  have hfin : (s.node 1).finished = true := by simp [CoreNode.finished, hpc, hcs]
  obtain ⟨hall, hversion, -⟩ := write_everywhere Mesh.two s h hs 1 (by decide)
  refine ⟨s, h, hs, ⟨hin, hcs⟩, hsub, (hall hfin 1 (by decide)).trans hsub,
    (hall hfin 2 (by decide)).trans hsub, ?_, ?_⟩
  · rw [hversion 1 (by decide), hone]
    decide
  · rw [hversion 2 (by decide), htwo]
    decide

end

end Core
end Epidemica
