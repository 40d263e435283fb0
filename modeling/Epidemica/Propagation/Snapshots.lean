import Epidemica.Propagation.System
import Epidemica.Core.Counting
import Mathlib.Data.List.GetD

/-!
# `Propagation.Snapshots` — what arrives below is a prefix of the snapshots

First hop: what a layer-one node was set to, with what is in flight to it, is `v_10, v_20, …` up to the
last tenth write of its core node (`SentInv`). Second hop: what a layer-two node was set to, with what is
in flight and what the `Run` thread still holds for it, are values its layer-one node has had, in an
order that never goes back (`RelayInv`). The second hop knows nothing of the core layer.
-/

namespace Epidemica

open Network Transition

namespace Propagation

/-! ## The first hop -/

section
variable {T : Tree} {a b : Int} {y : State × Hist}

/-- Runs of the core layer in which no node handles a `REQUEST` while it is sending its own. -/
abbrev quietRuns : Guard (State × Hist) Label := Guard.past (onCore Core.quietRuns)

theorem core_reachable (hy : Reachable (historySystem T) quietRuns y) :
    Reachable (Core.historySystem T.mesh) (Guard.past Core.quietRuns) (y.1.core, y.2.core) :=
  (coreSim fun _ _ _ => ⟨trivial, trivial, trivial⟩).reachable hy

/-- What has been sent to the layer-one node `b` by its core node `a`. -/
def SentInv (a b : Int) (y : State × Hist) : Prop :=
  ∃ m, y.2.sets b ++ setsIn (y.1.core.chan a b) = snapshots (y.2.core.applied a) m ∧
    CoreNode.Counted b (y.2.core.applied a) m (y.1.core.node a)

/-- A step of the core layer adds to the connection what the count demands. -/
theorem sent_core {s t : Core.State} {h : Core.Hist} {l : Core.Label} {m : Nat}
    (hs : Reachable (Core.historySystem T.mesh) (Guard.past Core.quietRuns) (s, h))
    (hst : Core.step T.mesh.cores T.mesh.layers s l = some t) (hl : ∀ p c, l ≠ .drain p c)
    (ha : a ∈ T.mesh.cores) (hb : b ∈ T.mesh.layers a LAYER_ONE)
    (hcount : CoreNode.Counted b (h.applied a) m (s.node a)) :
    ∃ m' new, setsIn (t.chan a b) = setsIn (s.chan a b) ++ new ∧
      snapshots (h.applied a ++ Core.executing s a l) m' = snapshots (h.applied a) m ++ new ∧
      CoreNode.Counted b (h.applied a ++ Core.executing s a l) m' (t.node a) := by
  have hnd := T.one_nodup a ha
  have hbc : b ∉ T.mesh.cores := T.mesh.below a ha b hb
  have hversion := Core.version_eq hs a
  cases l with
  | drain p c => exact absurd rfl (hl p c)
  | submit p d =>
    obtain ⟨hp, hidle, rfl⟩ := Core.step_submit hst
    refine ⟨m, [], by simp, by simp [Core.executing], ?_⟩
    rw [show Core.executing s a (.submit p d) = [] from rfl, List.append_nil]
    by_cases hap : a = p
    · subst hap
      -- between calls the count is in step, and the call leaves it so
      have hpc : (s.node a).mutex.pc = .idle := by simpa [CoreNode.idle] using hidle
      have hold := (CoreNode.counted_of_not_inCS (by simp [hpc, Pc.isInCS])).mp hcount
      rw [Core.put_node, if_pos rfl, CoreNode.executeTransaction]
      split
      · exact (CoreNode.counted_of_not_inCS (by simp [hpc, Pc.isInCS])).mpr hold
      · exact (CoreNode.counted_of_not_inCS
          (by simp [MutexNode.requester, hpc, Pc.isInCS])).mpr hold
    · rw [Core.put_node, if_neg hap]
      exact hcount
  | requester p =>
    obtain ⟨hp, hidle, rfl⟩ := Core.step_requester hst
    by_cases hap : a = p
    · subst hap
      -- this may execute the own write, count it, or send a snapshot
      have hwrite := Core.trans_isWrite (G := Core.quietRuns) (fun _ _ h => h.1) hs.forget a hidle
      obtain ⟨m', hsnap, hcount'⟩ :=
        hcount.requester a hb hnd hwrite hversion (a, (s.node a).trans)
      refine ⟨m', setsIn (select b ((s.node a).requester (T.mesh.layers a) a).2), by simp, ?_, ?_⟩
      · simpa [Core.executing] using hsnap
      · simpa [Core.executing] using hcount'
    · exact ⟨m, [], by simp [hap], by simp [Core.executing, hap],
        by simpa [Core.executing, hap] using hcount⟩
  | handle p q i =>
    obtain ⟨hp, hq, x, hx, rfl⟩ := Core.step_handle hst
    by_cases hap : a = p
    · subst hap
      have hba : b ≠ a := (ne_of_mem_of_not_mem ha hbc).symm
      obtain ⟨m', hsnap, hcount'⟩ :=
        hcount.handleMsg a x q hb hnd hversion (Core.not_inCS_of_write hs.forget ha hq hx)
      refine ⟨m', setsIn (select b ((s.node a).handleMsg (T.mesh.layers a) a x.value q x.tag).2),
        by simp [hba], ?_, ?_⟩
      · simpa [Core.executing, hx] using hsnap
      · simpa [Core.executing, hx] using hcount'
    · have hbp : b ≠ p := (ne_of_mem_of_not_mem hp hbc).symm
      exact ⟨m, [], by simp [hap, hbp], by simp [Core.executing, hap],
        by simpa [Core.executing, hap] using hcount⟩

/-- Whoever sends to a layer-one node is the core node above it. -/
theorem chan_one {s : Core.State} (hs : Reachable (Core.system T.mesh) Core.quietRuns s)
    (ha : a ∈ T.mesh.cores) (hb : b ∈ T.mesh.layers a LAYER_ONE) {p : Int} (hp : s.chan p b ≠ []) :
    p = a := by
  by_contra hpa
  refine hp (Core.chan_below (G := Core.quietRuns) (fun _ _ h => h.1) hs (T.mesh.below a ha b hb) ?_)
  intro hpc hbp
  exact hpa (T.one_above p hpc a ha b hbp hb)

theorem sentInv (ha : a ∈ T.mesh.cores) (hb : b ∈ T.mesh.layers a LAYER_ONE)
    (hy : Reachable (historySystem T) quietRuns y) : SentInv a b y := by
  refine Reachable.invariant (I := SentInv a b) ?_ ?_ hy
  · rintro ⟨s, h⟩ ⟨rfl, rfl⟩
    exact ⟨0, rfl, (CoreNode.counted_of_not_inCS rfl).mpr ⟨rfl, by simp [Hist.empty, Core.Hist.empty]⟩⟩
  · rintro ⟨s, h⟩ l ⟨t, k⟩ hr ⟨m, hsent, hcount⟩ hg hst
    replace hst := history_step hst
    obtain ⟨hst, rfl⟩ := hst
    have hcore : Reachable (Core.historySystem T.mesh) (Guard.past Core.quietRuns) (s.core, h.core) :=
      core_reachable hr
    cases l with
    | core l =>
      obtain ⟨hl, c, hc, rfl⟩ := step_core hst
      obtain ⟨m', new, hchan, hsnap, hcount'⟩ := sent_core hcore hc hl ha hb hcount
      refine ⟨m', ?_, hcount'⟩
      show (h.sets b ++ []) ++ setsIn (c.chan a b) =
        snapshots (h.core.applied a ++ Core.executing s.core a l) m'
      rw [hchan, hsnap, ← hsent, List.append_nil, List.append_assoc]
    | handleOne p b' =>
      obtain ⟨hb', x, rest, hc, -, rfl⟩ := step_handleOne hst
      refine ⟨m, ?_, by simpa [record, Label.toCore, Core.record, Core.executing] using hcount⟩
      show (h.sets b ++ setting s b (.handleOne p b')) ++ setsIn ((s.core.take p b' 0).chan a b) =
        snapshots (h.core.applied a ++ []) m
      rw [List.append_nil, ← hsent]
      by_cases hbb : b = b'
      · subst hbb
        -- the oldest message on the connection becomes the last setting
        obtain rfl : p = a := chan_one hcore.forget ha hb (by simp [hc])
        simp [setting, hc]
      · simp [setting, hbb]
    | run b' =>
      obtain ⟨-, rfl⟩ := step_run hst
      exact ⟨m, by simpa [record, setting, Label.toCore] using hsent, hcount⟩
    | handleTwo b' c =>
      obtain ⟨x, rest, -, rfl⟩ := step_handleTwo hst
      exact ⟨m, by simpa [record, setting, Label.toCore] using hsent, hcount⟩

end

/-! ## The second hop -/

/-- Values that a sequence of settings has passed through from `0` on, in an order that never goes back. -/
def Relayed (sets vs : List Int32) : Prop :=
  ∃ is : List Nat, is.Pairwise (· ≤ ·) ∧ (∀ i ∈ is, i ≤ sets.length) ∧
    vs = is.map fun i => (0 :: sets).getD i 0

theorem Relayed.nil (sets : List Int32) : Relayed sets [] :=
  ⟨[], List.Pairwise.nil, by simp, rfl⟩

/-- Further settings keep what was relayed. -/
theorem Relayed.more {sets vs : List Int32} (h : Relayed sets vs) (r : List Int32) :
    Relayed (sets ++ r) vs := by
  obtain ⟨is, hsorted, hle, rfl⟩ := h
  refine ⟨is, hsorted, ?_, List.map_congr_left ?_⟩
  · intro i hi
    rw [List.length_append]
    exact Nat.le_trans (hle i hi) (Nat.le_add_right _ _)
  · intro i hi
    have hi := hle i hi
    rw [← List.cons_append, List.getD_append _ _ _ _ (by rw [List.length_cons]; omega)]

/-- The present value may always be relayed. -/
theorem Relayed.latest {sets vs : List Int32} (h : Relayed sets vs) :
    Relayed sets (vs ++ [(0 :: sets).getD sets.length 0]) := by
  obtain ⟨is, hsorted, hle, rfl⟩ := h
  refine ⟨is ++ [sets.length], ?_, ?_, by simp⟩
  · rw [List.pairwise_append]
    refine ⟨hsorted, List.pairwise_singleton _ _, ?_⟩
    intro i hi j hj
    rw [List.mem_singleton.mp hj]
    exact hle i hi
  · intro i hi
    rcases List.mem_append.mp hi with hi | hi
    · exact hle i hi
    · rw [List.mem_singleton.mp hi]

/-- What has arrived of what was relayed. -/
theorem Relayed.arrived {sets vs ws : List Int32} (h : Relayed sets (vs ++ ws)) : Relayed sets vs := by
  obtain ⟨is, hsorted, hle, heq⟩ := h
  obtain ⟨js, ks, rfl, hjs, -⟩ := List.map_eq_append_iff.mp heq.symm
  refine ⟨js, (List.pairwise_append.mp hsorted).1, fun i hi => hle i (List.mem_append_left _ hi), ?_⟩
  exact hjs.symm

section
variable {T : Tree} {b c : Int} {y : State × Hist} {G : Guard (State × Hist) Label}

/-- Handling a message keeps the version the last of the values set. -/
theorem handleMsg_last {tr : Transaction} {m : Msg} {vs : List Int32}
    (h : tr.version = (0 :: vs).getD vs.length 0) :
    (tr.handleMsg m.value m.tag).version =
      (0 :: (vs ++ m.set?.toList)).getD (vs ++ m.set?.toList).length 0 := by
  rw [Transaction.handleMsg_version]
  cases m.set? with
  | none => simpa using h
  | some v => simp

/-- A layer-one node holds the last version it was set to. -/
theorem one_version (hy : Reachable (historySystem T) G y) (b : Int) :
    (y.1.one b).transaction.version = (0 :: y.2.sets b).getD (y.2.sets b).length 0 := by
  refine Reachable.invariant (I := fun y => (y.1.one b).transaction.version =
    (0 :: y.2.sets b).getD (y.2.sets b).length 0) ?_ ?_ hy
  · rintro ⟨s, h⟩ ⟨rfl, rfl⟩
    rfl
  · rintro ⟨s, h⟩ l ⟨t, k⟩ - ih - hst
    replace hst := history_step hst
    obtain ⟨hst, rfl⟩ := hst
    cases l with
    | core l =>
      obtain ⟨-, core, -, rfl⟩ := step_core hst
      simpa [record, setting] using ih
    | handleOne p b' =>
      obtain ⟨-, m, rest, hm, -, rfl⟩ := step_handleOne hst
      by_cases hbb : b = b'
      · subst hbb
        simpa [record, setting, hm, LayerOneNode.handleMsg] using handleMsg_last (m := m) ih
      · simpa [record, setting, hbb] using ih
    | run b' =>
      obtain ⟨-, rfl⟩ := step_run hst
      by_cases hbb : b = b'
      · subst hbb
        have htr : ((s.one b).runStep (T.layerTwo b)).1.transaction = (s.one b).transaction := by
          simp only [LayerOneNode.runStep]
          split <;> rfl
        simpa [record, setting, htr] using ih
      · simpa [record, setting, hbb] using ih
    | handleTwo b' c =>
      obtain ⟨m, rest, -, rfl⟩ := step_handleTwo hst
      simpa [record, setting] using ih

/-- A layer-two node holds the last version it was set to. -/
theorem two_version (hy : Reachable (historySystem T) G y) (c : Int) :
    (y.1.two c).transaction.version = (0 :: y.2.copies c).getD (y.2.copies c).length 0 := by
  refine Reachable.invariant (I := fun y => (y.1.two c).transaction.version =
    (0 :: y.2.copies c).getD (y.2.copies c).length 0) ?_ ?_ hy
  · rintro ⟨s, h⟩ ⟨rfl, rfl⟩
    rfl
  · rintro ⟨s, h⟩ l ⟨t, k⟩ - ih - hst
    replace hst := history_step hst
    obtain ⟨hst, rfl⟩ := hst
    cases l with
    | core l =>
      obtain ⟨-, core, -, rfl⟩ := step_core hst
      simpa [record, copying] using ih
    | handleOne p b =>
      obtain ⟨-, m, rest, -, -, rfl⟩ := step_handleOne hst
      simpa [record, copying] using ih
    | run b =>
      obtain ⟨-, rfl⟩ := step_run hst
      simpa [record, copying] using ih
    | handleTwo b c' =>
      obtain ⟨m, rest, hm, rfl⟩ := step_handleTwo hst
      by_cases hcc : c = c'
      · subst hcc
        simpa [record, copying, hm, LayerTwoNode.handleMsg] using handleMsg_last (m := m) ih
      · simpa [record, copying, hcc] using ih

/-- What holds between a layer-one node `b` and the layer-two node `c` below it. -/
structure RelayInv (b c : Int) (y : State × Hist) : Prop where
  todo : (y.1.one b).todo.Nodup
  relayed : Relayed (y.2.sets b)
    (y.2.copies c ++ setsIn (y.1.down b c) ++ LayerOneNode.unsent c (y.1.one b))

/-- A statement of the `Run` thread reads the present version, or moves what it has read on. -/
theorem runStep_unsent {n : LayerOneNode} {layerTwo : List Int} (hc : c ∈ layerTwo)
    (hnd : layerTwo.Nodup) (htodo : n.todo.Nodup) :
    (n.runStep layerTwo).1.transaction = n.transaction ∧ (n.runStep layerTwo).1.todo.Nodup ∧
      ((n.unsent c = [] ∧ setsIn (select c (n.runStep layerTwo).2) = [] ∧
          (n.runStep layerTwo).1.unsent c = [n.transaction.version]) ∨
        setsIn (select c (n.runStep layerTwo).2) ++ (n.runStep layerTwo).1.unsent c = n.unsent c) := by
  obtain ⟨tr, run⟩ := n
  rcases run with _ | ⟨v, _ | ⟨x, todo⟩⟩ <;>
    simp only [LayerOneNode.runStep, LayerOneNode.unsent, LayerOneNode.todo] at htodo ⊢
  case broadcast => exact ⟨trivial, hnd, Or.inl ⟨trivial, rfl, if_pos hc⟩⟩
  case send.nil => exact ⟨trivial, List.nodup_nil, Or.inr (by simp)⟩
  case send.cons =>
    obtain ⟨hx, hndt⟩ := List.nodup_cons.mp htodo
    refine ⟨trivial, hndt, Or.inr ?_⟩
    by_cases hxc : x = c
    · subst hxc
      simp [hx]
    · simp [hxc, Ne.symm hxc]

/-- So a statement of the `Run` thread relays what it should: the version it reads is the present one. -/
theorem Relayed.runStep {sets copies : List Int32} {flight : List Msg} {n : LayerOneNode}
    {layerTwo : List Int} (hc : c ∈ layerTwo) (hnd : layerTwo.Nodup) (htodo : n.todo.Nodup)
    (hversion : n.transaction.version = (0 :: sets).getD sets.length 0)
    (h : Relayed sets (copies ++ setsIn flight ++ n.unsent c)) :
    Relayed sets (copies ++ setsIn (flight ++ select c (n.runStep layerTwo).2) ++
      (n.runStep layerTwo).1.unsent c) := by
  obtain ⟨-, -, hmove⟩ := runStep_unsent hc hnd htodo
  rw [setsIn_append]
  rcases hmove with ⟨hold, hout, hnew⟩ | hmove
  · rw [hold, List.append_nil] at h
    rw [hout, hnew, hversion, List.append_nil]
    exact h.latest
  · rw [← hmove] at h
    simpa only [List.append_assoc] using h

/-- Only layer-one nodes send to layer two, each to the nodes below it. -/
theorem down_below (hy : Reachable (historySystem T) G y) (b c : Int) :
    (b ∉ T.ones ∨ c ∉ T.layerTwo b → y.1.down b c = []) ∧
      (y.1.one b).todo ⊆ T.layerTwo b := by
  refine Reachable.invariant (I := fun y => (b ∉ T.ones ∨ c ∉ T.layerTwo b → y.1.down b c = []) ∧
    (y.1.one b).todo ⊆ T.layerTwo b) ?_ ?_ hy
  · rintro ⟨s, h⟩ ⟨rfl, rfl⟩
    exact ⟨fun _ => rfl, by simp [init, LayerOneNode.init, LayerOneNode.todo]⟩
  · rintro ⟨s, h⟩ l ⟨t, k⟩ - ⟨hdown, htodo⟩ - hst
    obtain ⟨hst, -⟩ := history_step hst
    cases l with
    | core l =>
      obtain ⟨-, core, -, rfl⟩ := step_core hst
      exact ⟨hdown, htodo⟩
    | handleOne p b' =>
      obtain ⟨-, m, rest, -, -, rfl⟩ := step_handleOne hst
      refine ⟨hdown, ?_⟩
      by_cases hbb : b = b'
      · subst hbb
        simpa [LayerOneNode.handleMsg, LayerOneNode.todo] using htodo
      · simpa [hbb] using htodo
    | run b' =>
      obtain ⟨hb', rfl⟩ := step_run hst
      by_cases hbb : b = b'
      · subst hbb
        simp only [sendAll_apply, if_pos, Function.update_self]
        simp only [LayerOneNode.todo] at htodo
        rcases hrun : (s.one b).run with _ | ⟨v, _ | ⟨x, todo⟩⟩ <;>
          simp only [hrun, LayerOneNode.runStep, LayerOneNode.todo] at htodo ⊢
        · exact ⟨by simpa using hdown, fun _ hx => hx⟩
        · exact ⟨by simpa using hdown, htodo⟩
        · -- the next send goes to a node below
          obtain ⟨hx, htodo⟩ := List.cons_subset.mp htodo
          refine ⟨?_, htodo⟩
          intro hnot
          have hxc : x ≠ c := by
            rintro rfl
            exact hnot.elim (fun h => h hb') (fun h => h hx)
          simpa [hxc] using hdown hnot
      · exact ⟨by simpa [sendAll_apply, hbb] using hdown, by simpa [hbb] using htodo⟩
    | handleTwo b' c' =>
      obtain ⟨m, rest, hc, rfl⟩ := step_handleTwo hst
      refine ⟨?_, htodo⟩
      intro hnot
      have hnil : s.down b c = [] := hdown hnot
      simp only [receive_apply, hnil]
      split <;> rfl

/-- Whoever sends to a layer-two node is the layer-one node above it. -/
theorem down_from (hy : Reachable (historySystem T) G y) (hb : b ∈ T.ones) (hc : c ∈ T.layerTwo b)
    {b' : Int} (hsent : y.1.down b' c ≠ []) : b' = b := by
  have hnone := (down_below hy b' c).1
  by_cases hb' : b' ∈ T.ones
  · by_cases hc' : c ∈ T.layerTwo b'
    · exact T.two_above b' hb' b hb c hc' hc
    · exact absurd (hnone (Or.inr hc')) hsent
  · exact absurd (hnone (Or.inl hb')) hsent

theorem relayInv (hb : b ∈ T.ones) (hc : c ∈ T.layerTwo b) (hy : Reachable (historySystem T) G y) :
    RelayInv b c y := by
  refine Reachable.invariant (I := RelayInv b c) ?_ ?_ hy
  · rintro ⟨s, h⟩ ⟨rfl, rfl⟩
    exact ⟨List.nodup_nil, Relayed.nil _⟩
  · rintro ⟨s, h⟩ l ⟨t, k⟩ hr ⟨htodo, hrel⟩ - hst
    replace hst := history_step hst
    obtain ⟨hst, rfl⟩ := hst
    cases l with
    | core l =>
      obtain ⟨-, core, -, rfl⟩ := step_core hst
      exact ⟨htodo, by simpa [record, setting, copying] using hrel⟩
    | handleOne p b' =>
      obtain ⟨-, m, rest, hm, -, rfl⟩ := step_handleOne hst
      by_cases hbb : b = b'
      · subst hbb
        have hset : setting s b (.handleOne p b) = m.set?.toList := by
          have hm : s.core.chan p b = m :: rest := hm
          simp [setting, hm]
        refine ⟨?_, ?_⟩
        · simpa [LayerOneNode.handleMsg, LayerOneNode.todo] using htodo
        · -- a new setting changes nothing that was relayed before
          have hmore := hrel.more m.set?.toList
          simpa [record, hset, copying, LayerOneNode.handleMsg, LayerOneNode.unsent] using hmore
      · constructor
        · simpa [hbb] using htodo
        · simpa [record, setting, copying, hbb] using hrel
    | run b' =>
      obtain ⟨-, rfl⟩ := step_run hst
      by_cases hbb : b = b'
      · subst hbb
        have hnd := T.two_nodup b hb
        refine ⟨?_, ?_⟩
        · simpa using (runStep_unsent hc hnd htodo).2.1
        · have hnext := Relayed.runStep hc hnd htodo (one_version hr b) hrel
          simpa [record, setting, copying, sendAll_apply] using hnext
      · constructor
        · simpa [hbb] using htodo
        · simpa [record, setting, copying, sendAll_apply, hbb] using hrel
    | handleTwo b' c' =>
      obtain ⟨m, rest, hm, rfl⟩ := step_handleTwo hst
      have hm : s.down b' c' = m :: rest := hm
      refine ⟨htodo, ?_⟩
      by_cases hcc : c = c'
      · subst hcc
        obtain rfl : b' = b := down_from hr hb hc (by simp [hm])
        simpa [record, setting, copying, receive_apply, hm] using hrel
      · simpa [record, setting, copying, receive_apply, hcc] using hrel

end

/-! ## Both hops -/

/-- Submitting one transaction after another makes a quiet run here too. -/
theorem quiet_of_sequential {T : Tree} {y : State × Hist}
    (hy : Reachable (historySystem T) (Guard.past (onCore (Core.sequentialRuns T.mesh))) y) :
    Reachable (historySystem T) quietRuns y := by
  have hquiet : ∀ x l z,
      Reachable (historySystem T) (Guard.past (onCore (Core.sequentialRuns T.mesh))) x →
      Guard.past (onCore (Core.sequentialRuns T.mesh)) x l → (historySystem T).step x l = some z →
      Guard.past (onCore Core.quietSend) x l := by
    intro x l z hx hg hst
    have hcore : Reachable (Core.historySystem T.mesh) (Guard.past (Core.sequentialRuns T.mesh))
        (x.1.core, x.2.core) := (coreSim fun _ _ _ => ⟨trivial, trivial, trivial⟩).reachable hx
    cases l with
    | core l =>
      obtain ⟨-, core, hc, -⟩ := step_core (withHistory_step.mp hst).1
      exact Core.sequential_quiet (G := Core.sequentialRuns T.mesh) (fun _ _ h => h.1)
        (fun _ _ h => h.2.1) (fun _ _ h => h.2.2) hcore.forget hg hc
    | _ => trivial
  apply (hy.strengthen hquiet).mono
  rintro x l ⟨hg, hq⟩
  cases l with
  | core l =>
    have hg : Core.sequentialRuns T.mesh x.1.core l := hg
    exact ⟨hg.1, hg.2.1, hq⟩
  | _ => trivial

/-- With no transaction in progress and no snapshot under way, layer one has been set to every tenth
    version. -/
theorem sets_at_rest {s : State} {h : Hist} (hs : Reachable (historySystem T) quietRuns (s, h))
    (ha : a ∈ T.mesh.cores) (hb : b ∈ T.mesh.layers a LAYER_ONE)
    (hidle : ∀ p ∈ T.mesh.cores, (s.core.node p).idle = true) (hnone : setsIn (s.core.chan a b) = []) :
    h.sets b = snapshots h.core.entered (h.core.entered.length / 10) := by
  obtain ⟨m, hsent, hcount⟩ := sentInv ha hb hs
  have hsent : h.sets b ++ setsIn (s.core.chan a b) = snapshots (h.core.applied a) m := hsent
  have happlied : h.core.applied a = h.core.entered :=
    Core.applied_eq_entered (core_reachable hs) hidle ha
  have hpc : (s.core.node a).mutex.pc = .idle := by simpa [CoreNode.idle] using hidle a ha
  have hm : m = (h.core.applied a).length / 10 :=
    ((CoreNode.counted_of_not_inCS (by simp [hpc, Pc.isInCS])).mp hcount).2
  rw [hnone, List.append_nil, hm, happlied] at hsent
  exact hsent

/-- Snapshot consistency. With `v_k` the version after the `k`-th write, what a layer-one node has been
    set to is `v_10, v_20, …` as far as it goes, up to the last tenth write when nothing is under way; and
    what a layer-two node has been set to are values `v_(10 i)` that its layer-one node has had, in an
    order that never goes back. Each node holds the last of its values. -/
theorem snapshot_consistency (T : Tree) (s : State) (h : Hist)
    (hs : Reachable (historySystem T) (Guard.past (onCore (Core.sequentialRuns T.mesh))) (s, h))
    (a b : Int) (ha : a ∈ T.mesh.cores) (hb : b ∈ T.mesh.layers a LAYER_ONE) :
    (10 * (h.sets b).length ≤ h.core.entered.length ∧
      h.sets b = snapshots h.core.entered (h.sets b).length ∧
      (s.one b).transaction.version = versionAt h.core.entered (10 * (h.sets b).length)) ∧
    ((∀ p ∈ T.mesh.cores, (s.core.node p).idle = true) → setsIn (s.core.chan a b) = [] →
      h.sets b = snapshots h.core.entered (h.core.entered.length / 10)) ∧
    ∀ c ∈ T.layerTwo b,
      (s.two c).transaction.version = (0 :: h.copies c).getD (h.copies c).length 0 ∧
      ∃ is : List Nat, is.Pairwise (· ≤ ·) ∧ (∀ i ∈ is, i ≤ (h.sets b).length) ∧
        h.copies c = is.map fun i => versionAt h.core.entered (10 * i) := by
  have hquiet := quiet_of_sequential hs
  have hcore : Reachable (Core.historySystem T.mesh) (Guard.past Core.quietRuns) (s.core, h.core) :=
    core_reachable hquiet
  have hbone : b ∈ T.ones := (T.mem_ones b).mpr ⟨a, ha, hb⟩
  obtain ⟨m, hsent, hcount⟩ := sentInv ha hb hquiet
  have hsent : h.sets b ++ setsIn (s.core.chan a b) = snapshots (h.core.applied a) m := hsent
  -- `a` may be behind the others, but only in what it has not executed yet
  obtain ⟨r, hr⟩ : h.core.applied a <+: h.core.entered := Core.applied_begins hcore ha
  obtain ⟨hlen, hsets⟩ := snapshots_begin hsent
  have hle : 10 * (h.sets b).length ≤ (h.core.applied a).length := by
    have hm := hcount.le
    have hm : 10 * m ≤ (h.core.applied a).length := hm
    omega
  have hall : h.sets b = snapshots h.core.entered (h.sets b).length := by
    rw [← hr, snapshots_append hle]
    exact hsets
  have hvalue : ∀ i ≤ (h.sets b).length, (0 :: h.sets b).getD i 0 = versionAt h.core.entered (10 * i) := by
    intro i hi
    rw [hall]
    exact snapshots_getD hi
  have hbound : 10 * (h.sets b).length ≤ h.core.entered.length := by
    rw [← hr, List.length_append]
    omega
  refine ⟨⟨hbound, hall, ?_⟩, ?_, ?_⟩
  · have hversion : (s.one b).transaction.version = (0 :: h.sets b).getD (h.sets b).length 0 :=
      one_version hs b
    rw [hversion, hvalue _ (Nat.le_refl _)]
  · intro hidle hnone
    exact sets_at_rest hquiet ha hb hidle hnone
  · intro c hc
    refine ⟨two_version hs c, ?_⟩
    -- what has arrived is the front of what was relayed
    obtain ⟨is, hsorted, his, hcopies⟩ := (relayInv hbone hc hs).relayed.arrived.arrived
    refine ⟨is, hsorted, his, hcopies.trans ?_⟩
    exact List.map_congr_left fun i hi => hvalue i (his i hi)

/-- One write of `A2` in the wiring of the controller, from its call to the last `RELEASE`. `count` stands
    for the statements that send a snapshot. -/
def writeRun (count : List Label) : List Label :=
  let statements (n : Nat) := List.replicate n (Label.core (.requester 8889))
  let peers (f : Int → Label) := [f 8888, f 8890]
  let handled := peers fun p => .core (.handle p 8889 0)
  let answered := peers fun p => .core (.handle 8889 p 0)
  [.core (.submit 8889 ⟨.sum, 3⟩)] ++ statements 5 ++ handled ++ answered ++ statements 4 ++ handled ++
    statements 3 ++ count ++ answered ++ statements 7 ++ handled

/-- Ten writes of `A2`, after which `B1`, `B2` and then `C1` are set. -/
def tenWrites : List Label :=
  (List.replicate 9 (writeRun [])).flatten ++
    writeRun (List.replicate 4 (.core (.requester 8889))) ++
    [.handleOne 8889 8891, .handleOne 8890 8892, .run 8892, .run 8892, .handleTwo 8892 8893]

theorem snapshot_consistency_tenWrites :
    ∃ s h, Reachable (historySystem Tree.controller)
        (Guard.past (onCore (Core.sequentialRuns Tree.controller.mesh))) (s, h) ∧
      h.core.entered.length = 10 ∧ h.copies 8893 = [30] ∧
      h.sets 8891 = snapshots h.core.entered 1 ∧ h.sets 8892 = snapshots h.core.entered 1 := by
  obtain ⟨⟨s, h⟩, -, hs, hP⟩ := Reachable.of_exec (historySystem Tree.controller)
    (Guard.past (onCore (Core.sequentialRuns Tree.controller.mesh))) (init, Hist.empty) tenWrites
    (fun y => y.2.core.entered.length == 10 && y.2.copies 8893 == [30] &&
      setsIn (y.1.core.chan 8889 8891) == [] && setsIn (y.1.core.chan 8890 8892) == [] &&
      Tree.controller.mesh.cores.all fun p => (y.1.core.node p).idle) ⟨rfl, rfl⟩ (by decide +kernel)
  simp only [Bool.and_eq_true, beq_iff_eq, List.all_eq_true] at hP
  obtain ⟨⟨⟨⟨hten, hcopies⟩, hquiet₁⟩, hquiet₂⟩, hidle⟩ := hP
  have h₁ := (snapshot_consistency Tree.controller s h hs 8889 8891 (by decide) (by decide)).2.1
  have h₂ := (snapshot_consistency Tree.controller s h hs 8890 8892 (by decide) (by decide)).2.1
  have h₁ := h₁ hidle hquiet₁
  have h₂ := h₂ hidle hquiet₂
  rw [hten] at h₁ h₂
  exact ⟨s, h, hs, hten, hcopies, h₁, h₂⟩

end Propagation
end Epidemica
