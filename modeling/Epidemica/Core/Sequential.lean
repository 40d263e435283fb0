import Epidemica.Core.Projection

/-!
# `Core.Sequential` — one transaction after another

The controller's watcher submits a transaction when the one before has returned. In such a run at most
one client thread is at work (`solo`), and no `REQUEST` outlives the write it was made for: it is ahead
of the write on its connection (`Chased`), and the thread returns only after the write was handled. So no
node handles a `REQUEST` while it is itself sending one (`sequential_quiet`).
-/

namespace Epidemica

open Network Transition

namespace Pc

/-- The clock has been read for a request that is not fully sent. -/
def sending : Pc → Bool
  | .store _ | .sendRequest _ (_ :: _) => true
  | _ => false

end Pc

namespace Core

/-- No node handles a `REQUEST` between reading its clock and finishing the send of its own. -/
def quietSend : Guard State Label
  | s, .handle p q i =>
    ∀ m ∈ (s.chan q p)[i]?, m.tag = .request → (s.node p).mutex.pc.sending = false
  | _, _ => True

instance : ∀ s l, Decidable (quietSend s l)
  | s, .handle p q i => inferInstanceAs (Decidable (∀ m ∈ (s.chan q p)[i]?,
      m.tag = .request → (s.node p).mutex.pc.sending = false))
  | _, .submit _ _ | _, .requester _ | _, .drain _ _ => isTrue trivial

/-- A transaction is submitted only when every one before has returned. -/
def sequential (net : Mesh) : Guard State Label
  | s, .submit _ _ => ∀ p ∈ net.cores, (s.node p).idle = true
  | _, _ => True

instance (net : Mesh) : ∀ s l, Decidable (sequential net s l)
  | s, .submit _ _ => inferInstanceAs (Decidable (∀ p ∈ net.cores, (s.node p).idle = true))
  | _, .requester _ | _, .handle _ _ _ | _, .drain _ _ => isTrue trivial

/-! ## Requests and the writes behind them -/

/-- Every `REQUEST` in the queue has a write behind it. -/
def Chased : List Msg → Prop
  | [] => True
  | m :: rest => (m.tag = .request → writesIn rest ≠ []) ∧ Chased rest

theorem Chased.append {l r : List Msg} (h : Chased l) (hr : ∀ m ∈ r, m.tag ≠ .request) :
    Chased (l ++ r) := by
  induction l with
  | nil =>
    rw [List.nil_append]
    induction r with
    | nil => trivial
    | cons m r ih =>
      refine ⟨fun hm => absurd hm (hr m List.mem_cons_self), ih ?_⟩
      intro x hx
      exact hr x (List.mem_cons_of_mem _ hx)
  | cons m l ih =>
    rw [List.cons_append]
    refine ⟨?_, ih h.2⟩
    intro hm
    rw [writesIn_append]
    exact List.append_ne_nil_of_left_ne_nil (h.1 hm) _

/-- A write sent last is behind everything. -/
theorem chased_append_write {r : List Msg} (hr : ∀ m ∈ r, m.tag ≠ .request) (hw : writesIn r ≠ [])
    (l : List Msg) : Chased (l ++ r) := by
  induction l with
  | nil => exact Chased.append (l := []) trivial hr
  | cons m l ih =>
    rw [List.cons_append]
    refine ⟨?_, ih⟩
    intro _
    rw [writesIn_append]
    exact List.append_ne_nil_of_right_ne_nil _ hw

/-- Without a write there is no `REQUEST` either. -/
theorem Chased.no_request {l : List Msg} (h : Chased l) (hw : writesIn l = []) :
    ∀ m ∈ l, m.tag ≠ .request := by
  induction l with
  | nil => simp
  | cons x l ih =>
    rw [writesIn_cons, List.append_eq_nil_iff] at hw
    intro m hm
    rcases List.mem_cons.mp hm with rfl | hm
    · intro htag
      exact h.1 htag hw.2
    · exact ih h.2 hw.2 m hm

end Core

namespace CoreNode

/-- `p` has been sent a `REQUEST` and not the write it was made for. -/
def asking (p : Int) (n : CoreNode) : Bool :=
  match n.mutex.pc with
  | .sendRequest _ todo => p ∉ todo
  | .wait _ => true
  | .inCS _ => p ∈ n.pending?.getD []
  | _ => false

variable {L : Layers} {p : Int} {n : CoreNode}

theorem asking_of_idle (h : n.idle = true) : n.asking p = false := by
  have hpc : n.mutex.pc = .idle := by simpa [idle] using h
  simp [asking, hpc]

/-- A statement after which `p` is not being asked sends it no `REQUEST`, and the write if it was being
    asked before. -/
theorem requester_asking (me : Int) (hp : p ∈ L CORE_LAYER) (hnd : n.mutex.pc.todo.Nodup)
    (hwrite : n.trans.type.isWrite = true) :
    (n.requester L me).1.asking p = true ∨
      ((∀ m ∈ select p (n.requester L me).2, m.tag ≠ .request) ∧
        (n.asking p = true → writesIn (select p (n.requester L me).2) ≠ [])) := by
  by_cases hcs : n.mutex.pc.isInCS = true ∧ n.cs ≠ .done
  · unfold requester
    rw [if_pos hcs]
    obtain ⟨⟨m, pc⟩, cs, tr, d, wc, fin⟩ := n
    obtain ⟨t, rfl⟩ := Pc.isInCS_iff.mp hcs.1
    rcases cs with ⟨_ | ⟨x, todo⟩⟩ | _ | _ | _ | _ | ⟨_, _ | ⟨b, todo⟩⟩ | _ | _ | _ | _ <;>
      simp only [critical]
    case sendWrite.cons =>
      -- the write goes to `p` now, or `p` is still to be sent it
      by_cases hpt : p ∈ todo
      · exact Or.inl (by simp [asking, pending?, Pc.isInCS, hpt])
      · right
        have hwr : tr.msg.write? = some tr := TransactionData.write?_msg hwrite
        have htag : tr.msg.tag ≠ .request := by
          intro htag
          simp [Msg.write?, htag] at hwr
        by_cases hpx : x = p
        · subst hpx
          simp [hwr, htag]
        · simp [hpx, asking, pending?, Pc.isInCS, hpt, Ne.symm hpx]
    case sendSet.cons =>
      right
      by_cases hpb : b = p <;> simp [hpb, asking, pending?, Pc.isInCS]
    case waitReady => split <;> simp [asking, pending?, Pc.isInCS]
    case done => exact absurd rfl hcs.2
    all_goals simp [asking, pending?, Pc.isInCS]
  · unfold requester
    rw [if_neg hcs]
    obtain ⟨⟨m, pc⟩, cs, tr, d, wc, fin⟩ := n
    rcases pc with _ | _ | _ | ⟨t, _ | ⟨q, todo⟩⟩ | _ | _ | _ | ⟨_, _, _ | ⟨q, todo⟩⟩ <;>
      simp only [MutexNode.requester]
    case sendRequest.cons =>
      by_cases hpt : p ∈ todo
      · have hpq : q ≠ p := fun hqp => (List.nodup_cons.mp hnd).1 (hqp ▸ hpt)
        exact Or.inr (by simp [hpq, asking, hpt])
      · exact Or.inl (by simp [asking, hpt])
    case wait =>
      left
      cases htest : m.okeyCS (L CORE_LAYER) me <;> simp [asking, pending?, Pc.isInCS, hp]
    case inCS =>
      have hdone : cs = .done := by simpa [Pc.isInCS] using hcs
      exact Or.inr (by simp [asking, pending?, Pc.isInCS, hdone])
    case sendRelease.cons =>
      right
      by_cases hpq : q = p <;> simp [hpq, asking]
    all_goals simp [asking, hp]

/-- No handler sends a `REQUEST`. -/
theorem handleMsg_no_request (L : Layers) (me : Int) (m : Msg) (src : Int) :
    ∀ o ∈ (n.handleMsg L me m.value src m.tag).2, o.2.tag ≠ .request := by
  intro o ho
  rcases mem_handleMsg ho with ⟨b, -, v, rfl⟩ | ⟨-, rfl⟩ | ⟨-, rfl⟩ <;> simp

end CoreNode

namespace Core

section
variable {net : Mesh} {G : Guard State Label} {s : State}

/-- As long as `p` is not being asked by `q`, every `REQUEST` of `q` on its way to `p` has the write it
    was made for behind it. -/
theorem chased (hclients : ∀ s l, G s l → clients s l) (hfifo : ∀ s l, G s l → fifo s l)
    (hs : Reachable (system net) G s) {p q : Int} (hp : p ∈ net.cores) (hq : q ∈ net.cores)
    (hpq : p ≠ q) : (s.node q).asking p = true ∨ Chased (s.chan q p) := by
  refine Reachable.invariant
    (I := fun s => (s.node q).asking p = true ∨ Chased (s.chan q p)) ?_ ?_ hs
  · rintro s rfl
    exact Or.inr trivial
  · intro s l t hr ih hg hst
    cases l with
    | submit a d =>
      obtain ⟨-, hidle, rfl⟩ := step_submit hst
      by_cases hqa : q = a
      · subst hqa
        -- an idle node asks nobody, so the queue was chased before
        have hold := CoreNode.asking_of_idle (p := p) hidle
        right
        simpa using ih.resolve_left (by simp [hold])
      · simpa [hqa] using ih
    | requester a =>
      obtain ⟨-, hidle, rfl⟩ := step_requester hst
      by_cases hqa : q = a
      · subst hqa
        have hnd : (s.node q).mutex.pc.todo.Nodup :=
          (Mutex.nodeInv ((mutexSim hclients hfifo handlingMutex_any).reachable hr) hq).todo
        rw [put_node, put_chan, if_pos rfl, if_pos rfl]
        rcases CoreNode.requester_asking q ((net.mem_core q hq p).mpr ⟨hp, hpq⟩) hnd
          (trans_isWrite hclients hr q hidle) with hnew | ⟨hno, hwrite⟩
        · exact Or.inl hnew
        · right
          rcases ih with hold | hchased
          · exact chased_append_write hno (hwrite hold) _
          · exact hchased.append hno
      · simpa [hqa] using ih
    | handle a b i =>
      obtain ⟨ha, hb, m, hm, rfl⟩ := step_handle hst
      obtain rfl : i = 0 := hfifo _ _ hg
      obtain ⟨hpend, -, -, hpc⟩ :=
        CoreNode.handleMsg_pending? (L := net.layers a) (n := s.node a) a m b
      have hasking : (((s.take b a 0).put a
          ((s.node a).handleMsg (net.layers a) a m.value b m.tag)).node q).asking p =
          (s.node q).asking p := by
        by_cases hqa : q = a
        · subst hqa
          simp only [put_node, if_pos, CoreNode.asking, hpc, hpend]
        · simp [hqa]
      rw [hasking]
      apply ih.imp_right
      intro hchased
      -- what is left of the queue, and behind it what the handler sent
      have hleft : Chased ((s.take b a 0).chan q p) := by
        rw [take_chan]
        split
        · cases hc : s.chan q p with
          | nil => trivial
          | cons x rest => exact (hc ▸ hchased : Chased (x :: rest)).2
        · exact hchased
      rw [put_chan]
      split
      · exact hleft.append fun o ho =>
          CoreNode.handleMsg_no_request _ _ _ _ _ (mem_select.mp ho)
      · exact hleft
    | drain a b =>
      obtain ⟨hb, -, rfl⟩ := step_drain net.layers hst
      have hpb : p ≠ b := fun hpb => hb (hpb ▸ hp)
      simpa [hpb] using ih

/-- At most one client thread is at work. -/
theorem solo (hseq : ∀ s l, G s l → sequential net s l) (hs : Reachable (system net) G s) {p q : Int}
    (hp : p ∈ net.cores) (hq : q ∈ net.cores) :
    (s.node p).idle = false → (s.node q).idle = false → p = q := by
  refine Reachable.invariant
    (I := fun s => (s.node p).idle = false → (s.node q).idle = false → p = q) ?_ ?_ hs
  · rintro s rfl
    simp [init, CoreNode.init, MutexNode.init, CoreNode.idle]
  · intro s l t _ ih hg hst
    cases l with
    | submit a d =>
      obtain ⟨-, -, rfl⟩ := step_submit hst
      -- all are idle, so only the node called is at work now
      have hall : ∀ p ∈ net.cores, (s.node p).idle = true := hseq _ _ hg
      have honly : ∀ c ∈ net.cores, ((s.put a
          ((s.node a).executeTransaction (net.layers a) a d, [])).node c).idle = false → c = a := by
        intro c hc hbusy
        by_contra hca
        rw [put_node, if_neg hca, hall c hc] at hbusy
        exact absurd hbusy (by simp)
      intro hbp hbq
      rw [honly p hp hbp, honly q hq hbq]
    | requester a =>
      obtain ⟨-, hidle, rfl⟩ := step_requester hst
      have hback : ∀ c, ((s.put a
          ((s.node a).requester (net.layers a) a)).node c).idle = false → (s.node c).idle = false := by
        intro c hbusy
        by_cases hca : c = a
        · exact hca ▸ hidle
        · rwa [put_node, if_neg hca] at hbusy
      intro hbp hbq
      exact ih (hback p hbp) (hback q hbq)
    | handle a b i =>
      obtain ⟨-, -, m, -, rfl⟩ := step_handle hst
      obtain ⟨-, -, -, hpc⟩ :=
        CoreNode.handleMsg_pending? (L := net.layers a) (n := s.node a) a m b
      have hback : ∀ c, (((s.take b a i).put a
          ((s.node a).handleMsg (net.layers a) a m.value b m.tag)).node c).idle =
          (s.node c).idle := by
        intro c
        by_cases hca : c = a
        · subst hca
          simp only [put_node, if_pos, CoreNode.idle, hpc]
        · simp [hca]
      rw [hback, hback]
      exact ih
    | drain a b =>
      obtain ⟨-, -, rfl⟩ := step_drain net.layers hst
      exact ih

/-- A node that is sending a `REQUEST` has none to handle: its sender is at work, so every other node has
    returned, with all its writes handled and with them its `REQUEST`s. -/
theorem sequential_quiet (hclients : ∀ s l, G s l → clients s l) (hfifo : ∀ s l, G s l → fifo s l)
    (hseq : ∀ s l, G s l → sequential net s l) {t : State} {l : Label}
    (hs : Reachable (system net) G s) (hg : G s l) (hst : (system net).step s l = some t) :
    quietSend s l := by
  cases l with
  | submit p d => trivial
  | requester p => trivial
  | drain p b => trivial
  | handle p q i =>
    intro m hm htag
    obtain ⟨hp, hq, -⟩ := step_handle hst
    obtain ⟨hqc, hqp⟩ := (net.mem_core p hp q).mp hq
    by_contra hsend
    -- `p` is at work, so `q` has returned, and its last write was handled everywhere
    have hbusy : (s.node p).idle = false := by
      cases hpc : (s.node p).mutex.pc <;> simp_all [Pc.sending, CoreNode.idle]
    have hidle : (s.node q).idle = true := by
      by_contra hidle
      exact hqp (solo hseq hs hqc hp (by simpa using hidle) hbusy)
    have hpend : (s.node q).pending? = none := by
      have hpc : (s.node q).mutex.pc = .idle := by simpa [CoreNode.idle] using hidle
      simp [CoreNode.pending?, hpc, Pc.isInCS]
    have hnone : writesIn (s.chan q p) = [] := by
      have hz := ((readyInv hclients hqc hs).quiet hpend).2 p ((net.mem_peers hqc).mpr ⟨hp, hqp.symm⟩)
      exact List.eq_nil_of_length_eq_zero (Nat.eq_zero_of_add_eq_zero_right hz)
    have hchased : Chased (s.chan q p) :=
      (chased hclients hfifo hs hp hqc hqp.symm).resolve_left
        (by simp [CoreNode.asking_of_idle hidle])
    exact hchased.no_request hnone m (List.mem_of_getElem? (Option.mem_def.mp hm)) htag

end

end Core
end Epidemica
