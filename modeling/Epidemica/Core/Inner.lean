import Epidemica.Core.Projection

/-!
# `Core.Inner` — the core layer without what hangs below it

The nodes below receive `SET`s and send nothing that a core node reads. A core layer in which each broadcast
of `SET` has nobody left goes through the same writes: its steps are those of the layer with the nodes below,
the sends of `SET` apart (`sees_step`). The tables of the two may differ, too, as long as they agree where
a client thread is at work.
-/

namespace Epidemica

open Network Transition

/-- The broadcast of `SET` has nobody left. -/
def CsPc.inner : CsPc → CsPc
  | .sendSet v _ => .sendSet v []
  | cs => cs

namespace CoreNode

/-- The node as it would be with nobody below it. -/
def inner (n : CoreNode) : CoreNode := { n with cs := n.cs.inner }

@[simp] theorem inner_mutex (n : CoreNode) : n.inner.mutex = n.mutex := rfl
@[simp] theorem inner_trans (n : CoreNode) : n.inner.trans = n.trans := rfl
@[simp] theorem inner_transaction (n : CoreNode) : n.inner.transaction = n.transaction := rfl
@[simp] theorem inner_idle (n : CoreNode) : n.inner.idle = n.idle := rfl

theorem inner_cs_iff {n : CoreNode} {cs : CsPc} (h : ∀ v todo, cs ≠ .sendSet v todo) :
    n.inner.cs = cs ↔ n.cs = cs := by
  show n.cs.inner = cs ↔ n.cs = cs
  cases hcs : n.cs with
  | sendSet v todo =>
    have hnot := h v todo
    have hempty := h v []
    exact iff_of_false (fun he => hempty he.symm) (fun he => hnot he.symm)
  | _ => rfl

section
-- the tables of a node, with and without what hangs below it
variable {L M : Layers} {n : CoreNode} (me : Int)

theorem executeTransaction_inner {d : TransactionData}
    (h : d.type = .read ∨ M CORE_LAYER = L CORE_LAYER) :
    n.inner.executeTransaction M me d = (n.executeTransaction L me d).inner := by
  by_cases hread : d.type = .read
  · simp only [executeTransaction, if_pos hread]
    rfl
  · have hpeers := h.resolve_left hread
    simp only [executeTransaction, if_neg hread, inner_mutex, hpeers]
    rfl

/-- The next statement sends a `SET`. -/
def sendingSet (n : CoreNode) : Prop := n.mutex.pc.isInCS = true ∧ ∃ v b todo, n.cs = .sendSet v (b :: todo)

theorem requester_sendingSet (h : n.sendingSet) (L : Layers) :
    ∃ v b todo, n.cs = .sendSet v (b :: todo) ∧ (n.requester L me).1.cs = .sendSet v todo ∧
      (n.requester L me).1.inner = n.inner ∧ (n.requester L me).2 = [(b, ⟨.set, v.toInt⟩)] := by
  obtain ⟨hin, v, b, todo, hcs⟩ := h
  have hcrit : n.requester L me = n.critical L := if_pos ⟨hin, by simp [hcs]⟩
  refine ⟨v, b, todo, hcs, ?_⟩
  rw [hcrit]
  simp [critical, inner, CsPc.inner, hcs]

/-- Any other statement is the same in both. -/
theorem requester_inner (hcore : M CORE_LAYER = L CORE_LAYER) (hone : M LAYER_ONE = [])
    (h : ¬ n.sendingSet) :
    n.inner.requester M me = ((n.requester L me).1.inner, (n.requester L me).2) := by
  by_cases hcs : n.mutex.pc.isInCS = true ∧ n.cs ≠ .done
  · have hcs' : n.inner.mutex.pc.isInCS = true ∧ n.inner.cs ≠ .done :=
      ⟨hcs.1, fun hdone => hcs.2 ((inner_cs_iff (by simp)).mp hdone)⟩
    have hleft : n.inner.requester M me = n.inner.critical M := if_pos hcs'
    have hright : n.requester L me = n.critical L := if_pos hcs
    rw [hleft, hright]
    obtain ⟨m, cs, d, tr, wc, fin⟩ := n
    rcases cs with ⟨_ | _⟩ | _ | _ | _ | _ | ⟨v, _ | ⟨b, todo⟩⟩ | _ | _ | _ | _
    case sendSet.cons => exact absurd ⟨hcs.1, v, b, todo, rfl⟩ h
    case testCount =>
      by_cases hten : wc ≥ UPDATE_COUNT <;> simp [critical, inner, CsPc.inner, hten]
    case waitReady =>
      by_cases hready : fin = (L CORE_LAYER).length <;> simp [critical, inner, CsPc.inner, hcore, hready]
    all_goals simp [critical, inner, CsPc.inner, hone]
  · have hcs' : ¬ (n.inner.mutex.pc.isInCS = true ∧ n.inner.cs ≠ .done) := by
      rintro ⟨hin, hne⟩
      exact hcs ⟨hin, fun hdone => hne ((inner_cs_iff (by simp)).mpr hdone)⟩
    unfold requester
    rw [if_neg hcs, if_neg hcs', inner_mutex, hcore]
    by_cases hin : (n.mutex.requester (L CORE_LAYER) me).1.pc.isInCS = true <;> simp [inner, CsPc.inner, hin]

/-- A handler answers the same, and sends the nodes below nothing. -/
theorem handleMsg_inner (hone : M LAYER_ONE = []) (m : Msg) (src : Int) :
    (n.inner.handleMsg M me m.value src m.tag).1 = (n.handleMsg L me m.value src m.tag).1.inner ∧
      ∀ q ∉ L LAYER_ONE, select q (n.inner.handleMsg M me m.value src m.tag).2 =
        select q (n.handleMsg L me m.value src m.tag).2 := by
  have hwrite : ∀ d : TransactionData,
      (n.inner.handleWrite M d m.value src).1 = (n.handleWrite L d m.value src).1.inner ∧
        ∀ q ∉ L LAYER_ONE, select q (n.inner.handleWrite M d m.value src).2 =
          select q (n.handleWrite L d m.value src).2 := by
    intro d
    refine ⟨?_, ?_⟩
    · by_cases hten : n.writeCount + 1 ≥ 10 <;> simp [handleWrite, inner, hten]
    · intro q hq
      have hsets : select q (broadcastMsg L .set (n.transaction.execute d).version.toInt LAYER_ONE) = [] := by
        rw [List.eq_nil_iff_forall_not_mem]
        intro x hx
        obtain ⟨b, hb, heq⟩ := List.mem_map.mp (mem_select.mp hx)
        exact hq ((Prod.mk.inj heq).1 ▸ hb)
      have hnone : broadcastMsg M .set (n.transaction.execute d).version.toInt LAYER_ONE = [] := by
        simp [broadcastMsg, hone]
      rw [handleWrite_outs, handleWrite_outs, inner_transaction, hnone, ite_self, select_append, select_append]
      by_cases hten : n.writeCount + 1 ≥ 10
      · rw [if_pos hten, hsets]
        rfl
      · rw [if_neg hten]
  obtain ⟨tag, v⟩ := m
  cases tag with
  | sum => exact hwrite ⟨.sum, Int32.ofInt v⟩
  | substract => exact hwrite ⟨.substract, Int32.ofInt v⟩
  | multiply => exact hwrite ⟨.multiply, Int32.ofInt v⟩
  | _ => exact ⟨rfl, fun _ _ => rfl⟩

end

end CoreNode

namespace Core

/-! ## The two layers -/

/-- `c` is the layer `s` without what hangs below it. -/
structure Sees (cores : List Int) (s c : State) : Prop where
  node : ∀ p, c.node p = (s.node p).inner
  chan : ∀ p, ∀ q ∈ cores, c.chan p q = s.chan p q
  /-- `SET`s go to nodes below. -/
  below : ∀ p v todo, (s.node p).cs = .sendSet v todo → ∀ b ∈ todo, b ∉ cores

theorem sees_init (cores : List Int) : Sees cores init init where
  node _ := rfl
  chan _ _ _ := rfl
  below p v todo h := absurd h (by simp [init, CoreNode.init])

/-- The node whose client thread goes by its table in a step. -/
def Label.client : Label → Option Int
  | .submit p d => if d.type = .read then none else some p
  | .requester p => some p
  | .handle _ _ _ | .drain _ _ => none

/-- The tables `L` of the one and the mesh `M` of the other. -/
structure Covers (cores : List Int) (L : Int → Layers) (M : Mesh) : Prop where
  same : M.cores = cores
  below : ∀ p, M.layers p LAYER_ONE = []
  table : ∀ p ∈ cores, ∀ q ∈ L p CORE_LAYER, q ∈ M.peers p
  ones : ∀ p ∈ cores, ∀ b ∈ L p LAYER_ONE, b ∉ cores

section
variable {cores : List Int} {L : Int → Layers} {M : Mesh} {s c t : State} {h : Hist} {p : Int}

theorem Sees.put (hsees : Sees cores s c) {r u : CoreNode × Outs} (hnode : u.1 = r.1.inner)
    (houts : ∀ q ∈ cores, select q u.2 = select q r.2)
    (hbelow : ∀ v todo, r.1.cs = .sendSet v todo → ∀ b ∈ todo, b ∉ cores) :
    Sees cores (s.put p r) (c.put p u) where
  node a := by
    rw [put_node, put_node]
    split
    · exact hnode
    · exact hsees.node a
  chan a q hq := by
    rw [put_chan, put_chan, hsees.chan a q hq]
    split
    · rw [houts q hq]
    · rfl
  below a v todo hcs := by
    rw [put_node] at hcs
    split at hcs
    · exact hbelow v todo hcs
    · exact hsees.below a v todo hcs

theorem Sees.take (hsees : Sees cores s c) (q p : Int) (i : Nat) :
    Sees cores (s.take q p i) (c.take q p i) where
  node a := hsees.node a
  chan a b hb := by rw [take_chan, take_chan, hsees.chan a b hb]
  below a v todo hcs := hsees.below a v todo hcs

/-- A `SET` goes to nodes below. -/
theorem requester_below {L : Layers} {n : CoreNode} (me : Int) (hones : ∀ b ∈ L LAYER_ONE, b ∉ cores)
    (hold : ∀ v todo, n.cs = .sendSet v todo → ∀ b ∈ todo, b ∉ cores) :
    ∀ v todo, (n.requester L me).1.cs = .sendSet v todo → ∀ b ∈ todo, b ∉ cores := by
  intro v todo hv
  by_cases hcs : n.mutex.pc.isInCS = true ∧ n.cs ≠ .done
  · unfold CoreNode.requester at hv
    rw [if_pos hcs] at hv
    obtain ⟨m, cs, tr, d, wc, fin⟩ := n
    rcases cs with ⟨_ | _⟩ | _ | _ | _ | _ | ⟨u, _ | ⟨b, rest⟩⟩ | _ | _ | _ | _ <;>
      simp only [CoreNode.critical] at hv
    case testCount => split at hv <;> simp at hv
    case readVersion =>
      simp only [CsPc.sendSet.injEq] at hv
      exact hv.2 ▸ hones
    case sendSet.cons =>
      simp only [CsPc.sendSet.injEq] at hv
      intro a ha
      exact hold u _ rfl a (List.mem_cons_of_mem _ (hv.2 ▸ ha))
    case waitReady => split at hv <;> simp at hv
    all_goals simp at hv
  · unfold CoreNode.requester at hv
    rw [if_neg hcs] at hv
    simp only at hv
    split at hv
    · exact absurd hv (by simp)
    · exact hold v todo hv

/-- What is written down of a step is the same. -/
theorem Sees.record_eq (hsees : Sees cores s c) {l : Label} (hst : step cores L s l = some t)
    (hsame : ∀ p, l.client = some p → M.layers p CORE_LAYER = L p CORE_LAYER) :
    record M.layers c l h = record L s l h := by
  have hexecute : ∀ p, (s.node p).inner.cs = .execute ↔ (s.node p).cs = .execute :=
    fun p => CoreNode.inner_cs_iff (by simp)
  cases l with
  | requester p =>
    have hpeers := hsame p rfl
    simp [record, entering, executing, submitting, CoreNode.enters, hexecute, hsees.node, hpeers]
  | handle p q i =>
    obtain ⟨hp, -, m, hm, -⟩ := step_handle hst
    simp [record, entering, executing, submitting, hsees.chan q p hp]
  | submit p d => rfl
  | drain p b => rfl

/-- A step of the layer is a step of the layer without what hangs below, with the same history, or does
    nothing there. -/
theorem sees_step (hcov : Covers cores L M) (hsees : Sees cores s c) {l : Label}
    (hst : step cores L s l = some t)
    (hsame : ∀ p, l.client = some p → M.layers p CORE_LAYER = L p CORE_LAYER) :
    ∃ d, Sees cores t d ∧
      ((step M.cores M.layers c l = some d ∧ record M.layers c l h = record L s l h) ∨
        (d = c ∧ record L s l h = h)) := by
  have hrecord := hsees.record_eq (h := h) hst hsame
  cases l with
  | submit p d =>
    obtain ⟨hp, hidle, rfl⟩ := step_submit hst
    have hread : d.type = .read ∨ M.layers p CORE_LAYER = L p CORE_LAYER := by
      by_cases hd : d.type = .read
      · exact Or.inl hd
      · exact Or.inr (hsame p (if_neg hd))
    have hidle' : (c.node p).idle = true := by rw [hsees.node]; exact hidle
    refine ⟨_, hsees.put (u := ((c.node p).executeTransaction (M.layers p) p d, [])) ?_ ?_ ?_,
      Or.inl ⟨if_pos ⟨hcov.same ▸ hp, hidle'⟩, hrecord⟩⟩
    · rw [hsees.node]
      exact CoreNode.executeTransaction_inner p hread
    · intro q _
      rfl
    · intro v todo hcs
      apply hsees.below p v todo
      unfold CoreNode.executeTransaction at hcs
      split at hcs <;> exact hcs
  | requester p =>
    obtain ⟨hp, hbusy, rfl⟩ := step_requester hst
    have hbelow := requester_below p (hcov.ones p hp) (hsees.below p)
    by_cases hset : (s.node p).sendingSet
    · -- the layer without the nodes below does nothing
      obtain ⟨v, b, todo, hcs, hcs', hinner, houts⟩ := CoreNode.requester_sendingSet p hset (L p)
      have hb : b ∉ cores := hsees.below p v _ hcs b List.mem_cons_self
      refine ⟨c, ?_, Or.inr ⟨rfl, ?_⟩⟩
      · constructor
        · intro a
          rw [put_node]
          split
          · rename_i ha
            rw [hinner, ← ha]
            exact hsees.node a
          · exact hsees.node a
        · intro a q hq
          rw [put_chan, hsees.chan a q hq]
          split
          · have hne : b ≠ q := fun he => hb (he ▸ hq)
            simp [houts, hne]
          · rfl
        · intro a v todo hv
          rw [put_node] at hv
          split at hv
          · exact hbelow v todo hv
          · exact hsees.below a v todo hv
      · have hwait : (s.node p).mutex.pc.isWait = false := by
          obtain ⟨t, ht⟩ := Pc.isInCS_iff.mp hset.1
          rw [ht]
          rfl
        simp [record, submitting, entering, executing, CoreNode.enters, hwait, hcs]
    · have hmove := CoreNode.requester_inner p (hsame p rfl) (hcov.below p) hset
      have hbusy' : (c.node p).idle = false := by rw [hsees.node]; exact hbusy
      refine ⟨_, hsees.put (u := (c.node p).requester (M.layers p) p) ?_ ?_ hbelow,
        Or.inl ⟨if_pos ⟨hcov.same ▸ hp, hbusy'⟩, hrecord⟩⟩
      · rw [hsees.node, hmove]
      · intro q _
        rw [hsees.node, hmove]
  | handle p q i =>
    obtain ⟨hp, hq, m, hm, rfl⟩ := step_handle hst
    obtain ⟨hnode, houts⟩ := CoreNode.handleMsg_inner (n := s.node p) (L := L p) p
      (hcov.below p) m q
    have hm' : (c.chan q p)[i]? = some m := by rw [hsees.chan q p hp]; exact hm
    refine ⟨_, (hsees.take q p i).put (u := (c.node p).handleMsg (M.layers p) p m.value q m.tag) ?_ ?_ ?_,
      Or.inl ⟨?_, hrecord⟩⟩
    · rw [hsees.node]
      exact hnode
    · intro x hx
      rw [hsees.node]
      exact houts x fun hbelow => hcov.ones p hp x hbelow hx
    · intro v todo hcs
      rw [(CoreNode.handleMsg_pending? p m q).2.2.1] at hcs
      exact hsees.below p v todo hcs
    · have hin : p ∈ M.cores ∧ q ∈ M.layers p CORE_LAYER := ⟨hcov.same ▸ hp, hcov.table p hp q hq⟩
      simp only [step, if_pos hin, hm']
  | drain p b =>
    obtain ⟨hb, -, rfl⟩ := step_drain L hst
    refine ⟨c, ⟨hsees.node, ?_, hsees.below⟩, Or.inr ⟨rfl, ?_⟩⟩
    · intro a q hq
      have hne : ¬ (a = p ∧ q = b) := fun he => hb (he.2 ▸ hq)
      rw [take_chan, if_neg hne]
      exact hsees.chan a q hq
    · simp [record, submitting, entering, executing]

end

end Core
end Epidemica
