import Epidemica.Core.Steps

/-!
# `Core.Ready` — the count of `READY`s

`m_FinishedNodes` is a bare count: a `READY` says neither for which write it is nor who sent it. For each
writer `w` it is nevertheless exact (`ReadyInv`): with every peer the write is unsent, in flight as a
write, in flight as a `READY`, or counted, and the four numbers add up to the number of peers. So the
count reaches the number it is compared with only when nothing is in flight, and never passes it.

The channels may reorder; only loss and duplication are excluded.
-/

namespace Epidemica
namespace Core

open Network Transition

/-- The current write of `w`, or its `READY`, on the way between `w` and `x`. -/
def inflight (s : State) (w x : Int) : Nat :=
  (writesIn (s.chan w x)).length + readysIn (s.chan x w)

theorem writesIn_eraseIdx {l : List Msg} {i : Nat} {m : Msg} (h : l[i]? = some m) :
    ∃ l₁ l₂, writesIn l = l₁ ++ (m.write?.toList ++ l₂) ∧ writesIn (l.eraseIdx i) = l₁ ++ l₂ := by
  obtain ⟨l₁, l₂, hl, he⟩ := exists_split h
  exact ⟨writesIn l₁, writesIn l₂, by rw [hl]; simp, by rw [he]; simp⟩

theorem length_writesIn_eraseIdx {l : List Msg} {i : Nat} {m : Msg} (h : l[i]? = some m) :
    (writesIn (l.eraseIdx i)).length + (if m.write?.isSome then 1 else 0) = (writesIn l).length := by
  obtain ⟨l₁, l₂, hl, he⟩ := writesIn_eraseIdx h
  rw [hl, he]
  cases m.write? with
  | none => simp
  | some d =>
    simp
    omega

theorem readysIn_eraseIdx {l : List Msg} {i : Nat} {m : Msg} (h : l[i]? = some m) :
    readysIn (l.eraseIdx i) + (if m.isReady then 1 else 0) = readysIn l := by
  obtain ⟨l₁, l₂, hl, he⟩ := exists_split h
  rw [he, hl]
  simp
  omega

/-! ## How a step moves the messages of a write -/

section
variable {net : Mesh} {s t : State} {w x p q : Int} {i : Nat} {m : Msg}

/-- No statement of a client thread sends a `READY`. -/
theorem readysIn_requester (L : Layers) (me x : Int) (n : CoreNode) :
    readysIn (select x (n.requester L me).2) = 0 := by
  apply readysIn_eq_zero
  intro o ho
  have ho := mem_select.mp ho
  have hmove : CoreNode.Move L me n (n.requester L me) := CoreNode.requester_move
  cases hmove with
  | enter _ _ _ _ _ _ hout | reset _ _ _ _ _ _ hout => rw [hout] at ho; exact absurd ho (by simp)
  | send y todo _ _ _ _ _ hout =>
    rw [hout] at ho
    obtain ⟨-, rfl⟩ := Prod.mk.inj (List.mem_singleton.mp ho)
    cases htype : n.trans.type <;> simp [TransactionData.msg, TransactionType.tag, Msg.isReady, htype]
  | stay _ _ _ _ hout => exact (hout _ ho).2

/-- A statement of `p` puts its writes in flight, and moves nothing of other writers. -/
theorem inflight_requester (n : CoreNode) (L : Layers) :
    inflight (s.put p (n.requester L p)) w x =
      inflight s w x + if w = p then (writesIn (select x (n.requester L p).2)).length else 0 := by
  unfold inflight
  by_cases hw : w = p <;> by_cases hx : x = p <;>
    simp [hw, hx, readysIn_requester] <;> omega

/-- Handling a message turns a write into its `READY`, or counts a `READY`; nothing else moves. -/
theorem inflight_handle (hw : w ∈ net.cores) (hx : x ∈ net.cores) (hp : p ∈ net.cores) (hne : w ≠ x)
    (hpq : q ≠ p) (hm : (s.chan q p)[i]? = some m) :
    inflight ((s.take q p i).put p ((s.node p).handleMsg (net.layers p) p m.value q m.tag)) w x +
      (if w = p ∧ x = q ∧ m.isReady then 1 else 0) = inflight s w x := by
  obtain ⟨hwx, -⟩ := CoreNode.handleMsg_select (L := net.layers p) (n := s.node p) p m q x
    (fun hb => net.below p hp x hb hx)
  obtain ⟨-, hrw⟩ := CoreNode.handleMsg_select (L := net.layers p) (n := s.node p) p m q w
    (fun hb => net.below p hp w hb hw)
  unfold inflight
  by_cases hwp : w = p
  · subst hwp
    by_cases hxq : x = q
    · subst hxq
      have hready := readysIn_eraseIdx hm
      simp [hne.symm, hwx]
      omega
    · simp [hne.symm, hwx, hxq]
  · by_cases hxp : x = p
    · subst hxp
      by_cases hwq : w = q
      · subst hwq
        have hwrite := length_writesIn_eraseIdx hm
        simp [hne, hrw]
        omega
      · simp [hne, hrw, hwq]
    · simp [hwp, hxp]

end

/-! ## The transaction of a client thread -/

/-- A thread that is not idle is executing a write. -/
theorem trans_isWrite {net : Mesh} {G : Guard State Label} (hG : ∀ s l, G s l → clients s l) {s : State}
    (hs : Reachable (system net) G s) (w : Int) :
    (s.node w).idle = false → (s.node w).trans.type.isWrite = true := by
  refine Reachable.invariant
    (I := fun s => (s.node w).idle = false → (s.node w).trans.type.isWrite = true) ?_ ?_ hs
  · rintro s rfl
    simp [init, CoreNode.init, MutexNode.init, CoreNode.idle]
  · intro s l t _ ih hg hst
    cases l with
    | submit p d =>
      obtain ⟨-, hidle, rfl⟩ := step_submit hst
      have hd : d.type.isWrite = true ∨ d.type = .read := hG _ _ hg
      by_cases hw : w = p
      · subst hw
        simp only [put_node, if_pos, CoreNode.executeTransaction]
        split
        · intro h
          exact absurd (hidle.symm.trans h) (by simp)
        · rename_i hread
          intro _
          exact hd.resolve_right hread
      · simpa [hw] using ih
    | requester p =>
      obtain ⟨-, hidle, rfl⟩ := step_requester hst
      by_cases hw : w = p
      · subst hw
        have hmove : CoreNode.Move (net.layers w) w (s.node w) ((s.node w).requester (net.layers w) w) :=
          CoreNode.requester_move
        have htrans : ((s.node w).requester (net.layers w) w).1.trans = (s.node w).trans := by
          cases hmove <;> assumption
        simp only [put_node, if_pos, htrans]
        intro _
        exact ih hidle
      · simpa [hw] using ih
    | handle p q i =>
      obtain ⟨-, -, m, -, rfl⟩ := step_handle hst
      by_cases hw : w = p
      · subst hw
        obtain ⟨-, htrans, -, hpc⟩ :=
          CoreNode.handleMsg_pending? (L := net.layers w) (n := s.node w) w m q
        simpa [CoreNode.idle, htrans, hpc] using ih
      · simpa [hw] using ih
    | drain p b =>
      obtain ⟨-, -, rfl⟩ := step_drain net.layers hst
      exact ih

/-! ## The count of `READY`s -/

/-- Where the current write of `w` stands with each of its peers. -/
structure ReadyInv (net : Mesh) (w : Int) (s : State) : Prop where
  quiet : (s.node w).pending? = none →
    (s.node w).finishedNodes = 0 ∧ ∀ x ∈ net.peers w, inflight s w x = 0
  busy : ∀ todo, (s.node w).pending? = some todo →
    todo.Nodup ∧ todo ⊆ net.peers w ∧ 0 ≤ (s.node w).finishedNodes ∧
    (∀ x ∈ todo, inflight s w x = 0) ∧ (∀ x ∈ net.peers w, inflight s w x ≤ 1) ∧
    (s.node w).finishedNodes + ((net.peers w).map (inflight s w)).sum + todo.length =
      (net.peers w).length
  full : (s.node w).resetting → (s.node w).finishedNodes = (net.peers w).length

section
variable {net : Mesh} {s t : State} {w p q : Int}

/-- A step that changes nothing of this keeps it. -/
theorem ReadyInv.congr (h : ReadyInv net w s) (hpend : (t.node w).pending? = (s.node w).pending?)
    (hfin : (t.node w).finishedNodes = (s.node w).finishedNodes)
    (hfull : (t.node w).resetting → (s.node w).finishedNodes = (net.peers w).length)
    (hinf : ∀ x ∈ net.peers w, inflight t w x = inflight s w x) : ReadyInv net w t := by
  have hsum : (net.peers w).map (inflight t w) = (net.peers w).map (inflight s w) :=
    List.map_congr_left hinf
  refine ⟨?_, ?_, fun hr => hfin.trans (hfull hr)⟩
  · intro hp
    obtain ⟨h0, hz⟩ := h.quiet (hpend.symm.trans hp)
    exact ⟨hfin.trans h0, fun x hx => (hinf x hx).trans (hz x hx)⟩
  · intro todo hp
    obtain ⟨hnd, hsub, hnn, hz, hone, hadd⟩ := h.busy todo (hpend.symm.trans hp)
    refine ⟨hnd, hsub, hfin ▸ hnn, fun x hx => (hinf x (hsub hx)).trans (hz x hx), ?_, ?_⟩
    · intro x hx
      rw [hinf x hx]
      exact hone x hx
    · rw [hsum, hfin]
      exact hadd

/-- The write of `w` is nowhere in flight once the count is full. -/
theorem ReadyInv.inflight_eq_zero (h : ReadyInv net w s) {todo : List Int}
    (hpend : (s.node w).pending? = some todo)
    (hfull : (s.node w).finishedNodes = (net.peers w).length) :
    todo = [] ∧ ∀ x ∈ net.peers w, inflight s w x = 0 := by
  obtain ⟨-, -, -, -, -, hadd⟩ := h.busy todo hpend
  have hsum : ((net.peers w).map (inflight s w)).sum = 0 := by omega
  refine ⟨List.eq_nil_of_length_eq_zero (by omega), ?_⟩
  intro x hx
  exact List.sum_eq_zero_iff_forall_eq_nat.mp hsum _ (List.mem_map_of_mem hx)

/-- `requestCS` returns: all peers are still to be sent the write, and nothing is in flight. -/
theorem ReadyInv.enter (h : ReadyInv net w s) (hw : w ∈ net.cores)
    (hpend : (s.node w).pending? = none) (hpend' : (t.node w).pending? = some (net.peers w))
    (hfin : (t.node w).finishedNodes = (s.node w).finishedNodes)
    (hinf : ∀ x ∈ net.peers w, inflight t w x = inflight s w x)
    (hfull : (t.node w).resetting → (t.node w).finishedNodes = (net.peers w).length) :
    ReadyInv net w t := by
  obtain ⟨h0, hz⟩ := h.quiet hpend
  have hz' : ∀ x ∈ net.peers w, inflight t w x = 0 := fun x hx => (hinf x hx).trans (hz x hx)
  refine ⟨?_, ?_, hfull⟩
  · intro hp
    rw [hpend'] at hp
    exact absurd hp (by simp)
  · intro todo hp
    rw [hpend'] at hp
    obtain rfl : net.peers w = todo := Option.some.inj hp
    have hsum : ((net.peers w).map (inflight t w)).sum = 0 :=
      List.sum_eq_zero_iff_forall_eq_nat.mpr (by simpa using hz')
    rw [hfin, h0, hsum]
    refine ⟨net.nodup w hw, fun _ hx => hx, by omega, hz', ?_, by omega⟩
    intro x hx
    rw [hz' x hx]
    omega

/-- The write is sent to `x`: it moves from `todo` to the connection. -/
theorem ReadyInv.send {x : Int} {todo : List Int} (h : ReadyInv net w s) (hw : w ∈ net.cores)
    (hpend : (s.node w).pending? = some (x :: todo)) (hpend' : (t.node w).pending? = some todo)
    (hfin : (t.node w).finishedNodes = (s.node w).finishedNodes)
    (hx : inflight t w x = inflight s w x + 1) (hoff : ∀ y, y ≠ x → inflight t w y = inflight s w y)
    (hfull : (t.node w).resetting → (t.node w).finishedNodes = (net.peers w).length) :
    ReadyInv net w t := by
  obtain ⟨hnd, hsub, hnn, hz, hone, hadd⟩ := h.busy _ hpend
  obtain ⟨hxt, hnd'⟩ := List.nodup_cons.mp hnd
  refine ⟨?_, ?_, hfull⟩
  · intro hp
    rw [hpend'] at hp
    exact absurd hp (by simp)
  · intro todo' hp
    rw [hpend'] at hp
    obtain rfl : todo = todo' := Option.some.inj hp
    have hxp : x ∈ net.peers w := hsub List.mem_cons_self
    have hshift := sum_map_shift (net.nodup w hw) hxp (fun y _ hy => hoff y hy)
      (show inflight t w x + 0 = inflight s w x + 1 by omega)
    have hshift : ((net.peers w).map (inflight t w)).sum + 0 =
        ((net.peers w).map (inflight s w)).sum + 1 := hshift
    rw [hfin]
    refine ⟨hnd', fun y hy => hsub (List.mem_cons_of_mem _ hy), hnn, ?_, ?_, ?_⟩
    · intro y hy
      have hyx : y ≠ x := fun hyx => hxt (hyx ▸ hy)
      rw [hoff y hyx]
      exact hz y (List.mem_cons_of_mem _ hy)
    · intro y hy
      by_cases hyx : y = x
      · rw [hyx, hx, hz x List.mem_cons_self]
      · rw [hoff y hyx]
        exact hone y hy
    · rw [List.length_cons] at hadd
      omega

/-- The count is reset: it was full, so nothing is left in flight. -/
theorem ReadyInv.reset (h : ReadyInv net w s) (hr : (s.node w).resetting)
    (hpend : (s.node w).pending? = some []) (hpend' : (t.node w).pending? = none)
    (hfin : (t.node w).finishedNodes = 0) (hinf : ∀ x ∈ net.peers w, inflight t w x = inflight s w x)
    (hfull : (t.node w).resetting → (t.node w).finishedNodes = (net.peers w).length) :
    ReadyInv net w t := by
  obtain ⟨-, hz⟩ := h.inflight_eq_zero hpend (h.full hr)
  refine ⟨?_, ?_, hfull⟩
  · intro _
    exact ⟨hfin, fun x hx => (hinf x hx).trans (hz x hx)⟩
  · intro todo hp
    rw [hpend'] at hp
    exact absurd hp (by simp)

/-- A step of the client thread of `w` keeps the count. -/
theorem ReadyInv.requester_self (hw : w ∈ net.cores)
    (hwrite : (s.node w).pending?.isSome = true → (s.node w).trans.type.isWrite = true)
    (h : ReadyInv net w s) :
    ReadyInv net w (s.put w ((s.node w).requester (net.layers w) w)) := by
  have hmove : CoreNode.Move (net.layers w) w (s.node w) ((s.node w).requester (net.layers w) w) :=
    CoreNode.requester_move
  have hreset := CoreNode.requester_resetting (L := net.layers w) (n := s.node w) w
  have hinf : ∀ x, inflight (s.put w ((s.node w).requester (net.layers w) w)) w x =
      inflight s w x + (writesIn (select x ((s.node w).requester (net.layers w) w).2)).length := by
    intro x
    simpa using inflight_requester (s := s) (w := w) (x := x) (p := w) (s.node w) (net.layers w)
  have hnode : (s.put w ((s.node w).requester (net.layers w) w)).node w =
      ((s.node w).requester (net.layers w) w).1 := by simp
  generalize s.put w ((s.node w).requester (net.layers w) w) = t at hinf hnode ⊢
  generalize (s.node w).requester (net.layers w) w = r at hmove hreset hinf hnode
  rw [← hnode] at hreset
  have hfull : (t.node w).resetting → (t.node w).finishedNodes = (net.peers w).length := by
    intro hr
    exact (hreset hr).2.2
  cases hmove with
  | enter _ _ hpend hpend' hfin _ hout =>
    rw [← hnode] at hpend' hfin
    exact h.enter hw hpend hpend' hfin (fun x _ => by simp [hinf, hout]) hfull
  | send x todo _ hpend hpend' hfin _ hout =>
    rw [← hnode] at hpend' hfin
    have hwr : (s.node w).trans.msg.write? = some (s.node w).trans :=
      TransactionData.write?_msg (hwrite (by simp [hpend]))
    apply h.send hw hpend hpend' hfin
    · simp [hinf, hout, hwr]
    · intro y hy
      simp [hinf, hout, hy.symm]
    · exact hfull
  | reset hr _ hpend hpend' hfin _ hout =>
    rw [← hnode] at hpend' hfin
    exact h.reset hr hpend hpend' hfin (fun x _ => by simp [hinf, hout]) hfull
  | stay _ hpend hfin _ hout =>
    rw [← hnode] at hpend hfin
    apply h.congr hpend hfin
    · intro hr
      rw [← hfull hr, hfin]
    · intro x _
      rw [hinf, writesIn_eq_nil fun o ho => (hout _ (mem_select.mp ho)).1]
      simp

/-- Handling a message keeps the count: a `READY` moves from the connection into the count. -/
theorem ReadyInv.handle {i : Nat} {m : Msg} (hw : w ∈ net.cores) (hp : p ∈ net.cores)
    (hq : q ∈ net.peers p) (hm : (s.chan q p)[i]? = some m) (h : ReadyInv net w s) :
    ReadyInv net w
      ((s.take q p i).put p ((s.node p).handleMsg (net.layers p) p m.value q m.tag)) := by
  have hqp : q ≠ p := ((net.mem_peers hp).mp hq).2
  have hinf : ∀ x ∈ net.peers w,
      inflight ((s.take q p i).put p ((s.node p).handleMsg (net.layers p) p m.value q m.tag)) w x +
        (if w = p ∧ x = q ∧ m.isReady then 1 else 0) = inflight s w x := by
    intro x hx
    obtain ⟨hxc, hxw⟩ := (net.mem_peers hw).mp hx
    exact inflight_handle hw hxc hp hxw.symm hqp hm
  by_cases hwp : w = p
  · subst hwp
    obtain ⟨hpend, -, hcs, hpc⟩ :=
      CoreNode.handleMsg_pending? (L := net.layers w) (n := s.node w) w m q
    have hfin := CoreNode.handleMsg_finishedNodes (L := net.layers w) (n := s.node w) w m q
    have hnode : ((s.take q w i).put w
        ((s.node w).handleMsg (net.layers w) w m.value q m.tag)).node w =
        ((s.node w).handleMsg (net.layers w) w m.value q m.tag).1 := by simp
    generalize (s.take q w i).put w ((s.node w).handleMsg (net.layers w) w m.value q m.tag) = t
      at hinf hnode ⊢
    rw [← hnode] at hpend hcs hpc hfin
    have hreset : (t.node w).resetting → (s.node w).resetting := by
      simp [CoreNode.resetting, hcs, hpc]
    by_cases hready : m.isReady = true
    · -- the `READY` of `q` was in flight, so the write is not everywhere yet
      have hqt : inflight t w q + 1 = inflight s w q := by simpa [hready] using hinf q hq
      have hoff : ∀ x ∈ net.peers w, x ≠ q → inflight t w x = inflight s w x :=
        fun x hx hxq => by simpa [hxq] using hinf x hx
      have hle : ∀ x ∈ net.peers w, inflight t w x ≤ inflight s w x := fun x hx => by
        have := hinf x hx
        omega
      refine ⟨?_, ?_, ?_⟩
      · intro hp'
        have hz := (h.quiet (hpend ▸ hp')).2 q hq
        omega
      · intro todo hp'
        obtain ⟨hnd, hsub, hnn, hz, hone, hadd⟩ := h.busy todo (hpend ▸ hp')
        have hshift := sum_map_shift (d := 0) (net.nodup w hw) hq hoff hqt
        have hshift : ((net.peers w).map (inflight t w)).sum + 1 =
          ((net.peers w).map (inflight s w)).sum := hshift
        rw [hready, if_pos rfl] at hfin
        refine ⟨hnd, hsub, by omega, ?_, ?_, by omega⟩
        · intro x hx
          have hzx := hz x hx
          have hlex := hle x (hsub hx)
          omega
        · intro x hx
          exact Nat.le_trans (hle x hx) (hone x hx)
      · intro hr
        have hpend' : (s.node w).pending? = some [] := by
          obtain ⟨hin, hcs⟩ := hreset hr
          simp [CoreNode.pending?, hin, hcs]
        have hz := (h.inflight_eq_zero hpend' (h.full (hreset hr))).2 q hq
        omega
    · apply h.congr hpend (by simpa [hready] using hfin) (fun hr => h.full (hreset hr))
      intro x hx
      simpa [hready] using hinf x hx
  · have hnode : ((s.take q p i).put p
        ((s.node p).handleMsg (net.layers p) p m.value q m.tag)).node w = s.node w := by simp [hwp]
    apply h.congr (by rw [hnode]) (by rw [hnode]) (fun hr => h.full (hnode ▸ hr))
    intro x hx
    simpa [hwp] using hinf x hx

/-- Between calls `ExecuteTransaction` starts no write by itself. -/
theorem executeTransaction_pending? (L : Layers) {n : CoreNode} (d : TransactionData)
    (hidle : n.idle = true) :
    n.pending? = none ∧ (n.executeTransaction L w d).pending? = none ∧
      (n.executeTransaction L w d).finishedNodes = n.finishedNodes ∧
      ¬ (n.executeTransaction L w d).resetting := by
  have hpc : n.mutex.pc = .idle := by simpa [CoreNode.idle] using hidle
  unfold CoreNode.executeTransaction
  split <;> simp [CoreNode.pending?, CoreNode.resetting, MutexNode.requester, hpc, Pc.isInCS]

/-- In every interleaving, and whatever the order of delivery, the count is exact. -/
theorem readyInv {G : Guard State Label} (hG : ∀ s l, G s l → clients s l) (hw : w ∈ net.cores)
    (hs : Reachable (system net) G s) : ReadyInv net w s := by
  refine Reachable.invariant (I := ReadyInv net w) ?_ ?_ hs
  · rintro s rfl
    constructor <;> simp [init, CoreNode.init, MutexNode.init, CoreNode.pending?, CoreNode.resetting,
      Pc.isInCS, inflight]
  · intro s l t hr ih hg hst
    cases l with
    | submit p d =>
      obtain ⟨-, hidle, rfl⟩ := step_submit hst
      have hinf : ∀ x ∈ net.peers w,
          inflight (s.put p ((s.node p).executeTransaction (net.layers p) p d, [])) w x =
            inflight s w x := by
        intro x _
        simp [inflight]
      by_cases hwp : w = p
      · subst hwp
        obtain ⟨hpend, hpend', hfin, hreset⟩ :=
          executeTransaction_pending? (w := w) (net.layers w) d hidle
        exact ih.congr (by simp [hpend, hpend']) (by simp [hfin]) (by simp [hreset]) hinf
      · exact ih.congr (by simp [hwp]) (by simp [hwp]) (by simpa [hwp] using ih.full) hinf
    | requester p =>
      obtain ⟨-, hidle, rfl⟩ := step_requester hst
      by_cases hwp : w = p
      · subst hwp
        exact ih.requester_self hw fun _ => trans_isWrite hG hr w hidle
      · apply ih.congr (by simp [hwp]) (by simp [hwp]) (by simpa [hwp] using ih.full)
        intro x _
        simpa [hwp] using inflight_requester (s := s) (w := w) (x := x) (p := p) (s.node p) (net.layers p)
    | handle p q i =>
      obtain ⟨hp, hq, m, hm, rfl⟩ := step_handle hst
      exact ih.handle hw hp hq hm
    | drain p b =>
      obtain ⟨hb, -, rfl⟩ := step_drain net.layers hst
      refine ih.congr rfl rfl ih.full ?_
      intro x hx
      -- a connection to the layer below carries nothing between core nodes
      have hxc := ((net.mem_peers hw).mp hx).1
      have hxb : x ≠ b := fun hxb => hb (hxb ▸ hxc)
      have hwb : w ≠ b := fun hwb => hb (hwb ▸ hw)
      simp [inflight, hxb, hwb]

end

end Core
end Epidemica
