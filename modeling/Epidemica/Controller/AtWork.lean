import Epidemica.Controller.Membership
import Epidemica.Core.Inner
import Epidemica.Core.Reads

/-!
# `Controller.AtWork` — the start-up as a run of the core layer

The table of a node that is connected does not change any more, and a node that is not connected yet does
nothing that goes by its table. So a run of the start-up, in which the tables are still being filled, is a
run of a core layer that has all of them from the first step on (`start_refines`), and what holds of every
run of a core layer holds from the call of `watch()` on (`agreement_from_start`).
-/

namespace Epidemica
namespace StartUp

open Network Transition

/-- Only the steps of the core layer are written down. -/
def record (s : State) : Label → Core.Hist → Core.Hist
  | .core l, h => Core.record s.layers s.core l h
  | .stmt, h | .accept _ _, h => h

/-- The start-up, with the history of the core layer. -/
def historySystem (P : Plan) : System (State × Core.Hist) Label :=
  (system P).withHistory Core.Hist.empty record

/-- File events with writes come to nodes that are connected, and the steps of the core layer meet `G`. -/
def runs (P : Plan) (G : Guard Core.State Core.Label) : Guard State Label
  | s, .core l => afterConnect P s (.core l) ∧ G s.core l
  | _, _ => True

instance (P : Plan) (G : Guard Core.State Core.Label) [∀ s l, Decidable (G s l)] :
    ∀ s l, Decidable (runs P G s l)
  | s, .core l => inferInstanceAs (Decidable (afterConnect P s (.core l) ∧ G s.core l))
  | _, .stmt | _, .accept _ _ => isTrue trivial

theorem runs_afterConnect {P : Plan} {G : Guard Core.State Core.Label} :
    ∀ s l, runs P G s l → afterConnect P s l
  | _, .core _, hg => hg.1
  | _, .stmt, _ | _, .accept _ _, _ => trivial

/-- The core layer of a plan, with its tables filled. -/
def Plan.mesh (P : Plan) : Mesh := Mesh.full P.cores P.nodup

/-! ## Tables -/

section
variable {P : Plan} {s t : State} {p : Int}

/-- A node that is connected stays connected, with the table it has. -/
theorem StartInv.stays (hinv : StartInv P s) (hp : p ∈ P.cores) (hconn : connected P s p) {l : Label}
    (hst : step P s l = some t) :
    connected P t p ∧ t.layers p CORE_LAYER = s.layers p CORE_LAYER := by
  obtain ⟨hdone, hnone⟩ := hconn
  cases l with
  | stmt =>
    simp only [step] at hst
    split at hst
    · exact absurd hst (by simp)
    · rename_i a b layer todo htodo
      obtain rfl := Option.some.inj hst
      have hnot : Stmt.links p (.register a b layer) = false := hdone _ (htodo ▸ List.mem_cons_self)
      refine ⟨⟨fun x hx => hdone x (htodo ▸ List.mem_cons_of_mem _ hx), hnone⟩, ?_⟩
      show push s.layers a layer b p CORE_LAYER = _
      rw [push_apply, if_neg]
      rintro ⟨rfl, rfl⟩
      exact absurd hnot (by simp [Stmt.links])
    · rename_i a b layer todo htodo
      obtain rfl := Option.some.inj hst
      have hhead : Stmt.handshake a b layer ∈ s.todo := htodo ▸ List.mem_cons_self
      have hnot := hdone _ hhead
      refine ⟨⟨fun x hx => hdone x (htodo ▸ List.mem_cons_of_mem _ hx), ?_⟩, rfl⟩
      intro q hq
      show send s.hello a b _ q p = []
      rw [send_apply, if_neg]
      · exact hnone q hq
      · -- a handshake for a core node is one for the core layer
        rintro ⟨rfl, rfl⟩
        obtain rfl := P.level _ (hinv.script _ hhead) (p, layer) rfl hp
        exact absurd hnot (by simp [Stmt.links])
    · rename_i a todo htodo
      obtain rfl := Option.some.inj hst
      exact ⟨⟨fun x hx => hdone x (htodo ▸ List.mem_cons_of_mem _ hx), hnone⟩, rfl⟩
  | accept a b =>
    simp only [step] at hst
    split at hst
    · exact absurd hst (by simp)
    · rename_i x rest hhello
      obtain rfl := Option.some.inj hst
      have hpb : p ≠ b := by
        rintro rfl
        by_cases ha : a ∈ P.cores
        · exact absurd (hnone a ha) (by simp [hhello])
        · -- nobody else sends a core node a handshake
          have hticket := hinv.tickets p hp a
          rw [if_neg fun h => ha h.1, StartUp.tickets, hhello, List.length_cons] at hticket
          omega
      refine ⟨⟨hdone, ?_⟩, ?_⟩
      · intro q hq
        show receive s.hello a b 0 q p = []
        rw [receive_apply, if_neg fun h => hpb h.2]
        exact hnone q hq
      · show (if x.clean then push s.layers b x.level a else s.layers) p CORE_LAYER = _
        split
        · rw [push_apply, if_neg fun h => hpb h.1]
        · rfl
  | core l =>
    obtain ⟨core, -, rfl⟩ := Option.map_eq_some_iff.mp hst
    exact ⟨⟨hdone, hnone⟩, rfl⟩

/-- A core layer without anything below it, with the tables that are full already. -/
structure Fits (P : Plan) (M : Mesh) (s : State) : Prop where
  same : M.cores = P.cores
  below : ∀ p, M.layers p LAYER_ONE = []
  table : ∀ p ∈ P.cores, connected P s p → M.peers p = s.layers p CORE_LAYER

/-- The table of a node, completed if the node is not connected yet. -/
def fullTable (P : Plan) (s : State) (p : Int) : List Int :=
  if connected P s p then s.layers p CORE_LAYER else P.cores.filter (· ≠ p)

theorem StartInv.perm_fullTable (hinv : StartInv P s) (hp : p ∈ P.cores) :
    (fullTable P s p).Perm (P.cores.filter (· ≠ p)) := by
  unfold fullTable
  split
  · rename_i hconn
    exact hinv.table hp hconn
  · exact List.Perm.refl _

/-- The core layer with these tables. -/
def StartInv.completed (hinv : StartInv P s) : Mesh where
  cores := P.cores
  layers p k := if k = CORE_LAYER then fullTable P s p else []
  nodup p hp := (hinv.perm_fullTable hp).nodup_iff.mpr (P.nodup.filter _)
  mem_core p hp q := by
    rw [if_pos rfl, (hinv.perm_fullTable hp).mem_iff, List.mem_filter]
    simp
  below p _ b hb := absurd hb (by simp)

theorem StartInv.fits (hinv : StartInv P s) : Fits P hinv.completed s :=
  ⟨rfl, fun _ => rfl, fun _ _ hconn => if_pos hconn⟩

/-- The tables only get fuller. -/
theorem Fits.before {M : Mesh} (hinv : StartInv P s) {l : Label} (hst : step P s l = some t)
    (hfits : Fits P M t) : Fits P M s := by
  refine ⟨hfits.same, hfits.below, ?_⟩
  intro p hp hconn
  obtain ⟨hconn', htable⟩ := hinv.stays hp hconn hst
  rw [hfits.table p hp hconn', htable]

/-- Only core nodes are entered in the core layer. -/
theorem StartInv.covers {M : Mesh} (hinv : StartInv P s) (hfits : Fits P M s) :
    Core.Covers P.cores s.layers M := by
  refine ⟨hfits.same, hfits.below, ?_, hinv.below⟩
  intro p hp q hq
  have hcount : 0 < (s.layers p CORE_LAYER).count q := List.count_pos_iff.mpr hq
  have hticket := hinv.tickets p hp q
  unfold StartUp.tickets at hticket
  rw [M.mem_peers (hfits.same ▸ hp), hfits.same]
  by_contra hnot
  rw [if_neg hnot] at hticket
  omega

/-- A client thread that goes by the table of its node finds it full. -/
theorem StartInv.client {M : Mesh} (hinv : StartInv P s) (hfits : Fits P M s) {l : Core.Label}
    {core : Core.State} (hg : afterConnect P s (.core l))
    (hst : Core.step P.cores s.layers s.core l = some core) :
    ∀ p, l.client = some p → M.layers p CORE_LAYER = s.layers p CORE_LAYER := by
  intro p hl
  cases l with
  | submit q d =>
    obtain ⟨hq, -, -⟩ := Core.step_submit hst
    by_cases hread : d.type = .read
    · exact absurd hl (by simp [Core.Label.client, hread])
    · obtain rfl : q = p := by simpa [Core.Label.client, hread] using hl
      exact hfits.table q hq (hg.resolve_left hread)
  | requester q =>
    obtain ⟨hq, hbusy, -⟩ := Core.step_requester hst
    obtain rfl : q = p := Option.some.inj hl
    exact hfits.table q hq (hinv.busy q hq hbusy)
  | handle q x i => exact absurd hl (by simp [Core.Label.client])
  | drain q b => exact absurd hl (by simp [Core.Label.client])

end

/-! ## The refinement -/

/-- The steps of `Run` and the handshakes are none of the core layer. -/
theorem step_core {P : Plan} {s t : State} {l : Label} (hst : step P s l = some t) :
    (∃ k core, l = .core k ∧ Core.step P.cores s.layers s.core k = some core ∧
        t = { s with core := core }) ∨
      t.core = s.core ∧ ∀ h, record s l h = h := by
  cases l with
  | core k =>
    obtain ⟨core, hcore, rfl⟩ := Option.map_eq_some_iff.mp hst
    exact Or.inl ⟨k, core, rfl, hcore, rfl⟩
  | stmt =>
    simp only [step] at hst
    split at hst
    · exact absurd hst (by simp)
    all_goals
      obtain rfl := Option.some.inj hst
      exact Or.inr ⟨rfl, fun _ => rfl⟩
  | accept a b =>
    simp only [step] at hst
    split at hst
    · exact absurd hst (by simp)
    · obtain rfl := Option.some.inj hst
      exact Or.inr ⟨rfl, fun _ => rfl⟩

section
variable {P : Plan} {G : Guard Core.State Core.Label} {K : Mesh → Guard Core.State Core.Label}

/-- `K` allows in the layer without the nodes below what `G` allows in the start-up. -/
def Allows (P : Plan) (G : Guard Core.State Core.Label) (K : Mesh → Guard Core.State Core.Label) : Prop :=
  ∀ M s c t L l, M.cores = P.cores → Core.Sees P.cores s c → Core.step P.cores L s l = some t →
    G s l → K M c l

/-- Every state of the start-up is seen in a state of any core layer that fits. -/
theorem seen (hGK : Allows P G K) {x : State × Core.Hist}
    (hx : Reachable (historySystem P) (Guard.past (runs P G)) x) {M : Mesh} (hfits : Fits P M x.1) :
    ∃ c, Core.Sees P.cores x.1.core c ∧
      Reachable (Core.historySystem M) (Guard.past (K M)) (c, x.2) := by
  refine Reachable.invariant (I := fun x => ∀ M, Fits P M x.1 → ∃ c, Core.Sees P.cores x.1.core c ∧
    Reachable (Core.historySystem M) (Guard.past (K M)) (c, x.2)) ?_ ?_ hx M hfits
  · rintro ⟨s, h⟩ ⟨rfl, rfl⟩ M -
    exact ⟨Core.init, Core.sees_init P.cores, Reachable.of_init ⟨rfl, rfl⟩⟩
  · rintro ⟨s, h⟩ l ⟨t, k⟩ hs ih hg hst M hfits
    obtain ⟨hmove, rfl⟩ := withHistory_step.mp hst
    have hinv := startInv (hs.forget.mono runs_afterConnect)
    have hbefore : Fits P M s := hfits.before hinv hmove
    obtain ⟨c, hsees, hc⟩ := ih M hbefore
    rcases step_core hmove with ⟨j, core, rfl, hcore, rfl⟩ | ⟨hcore, hrecord⟩
    · obtain ⟨hafter, hG⟩ := hg
      obtain ⟨d, hd, ⟨hstep, hsame⟩ | ⟨rfl, hsame⟩⟩ := Core.sees_step (h := h) (hinv.covers hbefore)
        hsees hcore (hinv.client hbefore hafter hcore)
      · refine ⟨d, hd, hc.step (hGK M _ _ _ _ _ hfits.same hsees hcore hG) ?_⟩
        exact withHistory_step.mpr ⟨hstep, hsame.symm⟩
      · refine ⟨d, hd, ?_⟩
        show Reachable _ _ (d, Core.record s.layers s.core j h)
        rwa [hsame]
    · refine ⟨c, ?_, ?_⟩
      · show Core.Sees P.cores t.core c
        rwa [hcore]
      · show Reachable _ _ (c, record s l h)
        rwa [hrecord]

theorem allows_any : Allows P anyStep fun _ => anyStep := fun _ _ _ _ _ _ _ _ _ _ => trivial

theorem allows_clients : Allows P Core.clients fun _ => Core.clients := by
  intro M s c t L l _ _ _ hg
  cases l <;> exact hg

theorem allows_fifo : Allows P Core.fifo fun _ => Core.fifo := by
  intro M s c t L l _ _ _ hg
  cases l <;> exact hg

theorem allows_quietSend : Allows P Core.quietSend fun _ => Core.quietSend := by
  intro M s c t L l _ hsees hst hg
  cases l with
  | handle p q i =>
    obtain ⟨hp, -, -⟩ := Core.step_handle hst
    intro m hm htag
    rw [hsees.chan q p hp] at hm
    rw [hsees.node]
    exact hg m hm htag
  | _ => trivial

theorem allows_sequential : Allows P (Core.sequential P.mesh) Core.sequential := by
  intro M s c t L l hsame hsees _ hg
  cases l with
  | submit p d =>
    intro q hq
    have hq : q ∈ P.cores := hsame ▸ hq
    rw [hsees.node]
    exact hg q hq
  | _ => trivial

theorem Allows.and {H : Guard Core.State Core.Label} {J : Mesh → Guard Core.State Core.Label}
    (h₁ : Allows P G K) (h₂ : Allows P H J) :
    Allows P (fun s l => G s l ∧ H s l) fun M s l => K M s l ∧ J M s l :=
  fun M s c t L l hsame hsees hst hg =>
    ⟨h₁ M s c t L l hsame hsees hst hg.1, h₂ M s c t L l hsame hsees hst hg.2⟩

end

/-- The start-up refines the core layer: in every run in which file events with writes come to connected
    nodes, in whatever order the statements of `Run`, the handshakes and the core layer take their steps, the
    core nodes are in a state of a core layer whose tables are those of the connected nodes and were full from
    the beginning, with the same history. -/
theorem start_refines (P : Plan) (s : State) (h : Core.Hist)
    (hs : Reachable (historySystem P) (Guard.past (runs P anyStep)) (s, h)) :
    ∃ M c, M.cores = P.cores ∧ (∀ p ∈ P.cores, connected P s p → M.peers p = s.layers p CORE_LAYER) ∧
      Core.Sees P.cores s.core c ∧ Reachable (Core.historySystem M) (Guard.past anyStep) (c, h) := by
  have hfits := (startInv (hs.forget.mono runs_afterConnect)).fits
  obtain ⟨c, hsees, hc⟩ := seen allows_any hs hfits
  exact ⟨_, c, hfits.same, hfits.table, hsees, hc⟩

/-- A write that `A2` takes in as soon as it is connected, when `A3` has not heard of `A1`. -/
def early : List Label :=
  List.replicate 6 .stmt ++ [.accept 8888 8889, .core (.submit 8889 ⟨.sum, 5⟩)] ++
    List.replicate 5 (.core (.requester 8889)) ++
    [.accept 8889 8890, .core (.handle 8888 8889 0), .core (.handle 8890 8889 0), .core (.handle 8889 8888 0),
      .core (.handle 8889 8890 0)]

theorem start_refines_early : ∃ s h M c,
    exec (historySystem Plan.controller) (Guard.past (runs Plan.controller anyStep))
      (init Plan.controller, Core.Hist.empty) early = some (s, h) ∧
    s.layers 8890 CORE_LAYER = [8889] ∧ M.peers 8889 = [8890, 8888] ∧
    Core.Sees [8888, 8889, 8890] s.core c ∧ Reachable (Core.historySystem M) (Guard.past anyStep) (c, h) := by
  obtain ⟨⟨s, h⟩, hexec, hs, hP⟩ := Reachable.of_exec (historySystem Plan.controller)
    (Guard.past (runs Plan.controller anyStep)) (init Plan.controller, Core.Hist.empty) early
    (fun x => decide (connected Plan.controller x.1 8889) && x.1.layers 8889 CORE_LAYER == [8890, 8888] &&
      x.1.layers 8890 CORE_LAYER == [8889]) ⟨rfl, rfl⟩ (by decide +kernel)
  simp only [Bool.and_eq_true, decide_eq_true_eq, beq_iff_eq] at hP
  obtain ⟨⟨hconn, htable⟩, hother⟩ := hP
  obtain ⟨M, c, -, hpeers, hsees, hc⟩ := start_refines Plan.controller s h hs
  exact ⟨s, h, M, c, hexec, hother, (hpeers 8889 (by decide) hconn).trans htable, hsees, hc⟩

/-- What agreement means does not depend on the tables. -/
theorem agreement_of_sees {P : Plan} {M : Mesh} {s c : Core.State} {h : Core.Hist}
    (hsees : Core.Sees P.cores s c) (hsame : M.cores = P.cores) (hagree : Core.Agreement M c h) :
    Core.Agreement P.mesh s h := by
  obtain ⟨hordered, hversion, hquiescent⟩ := hagree
  simp only [hsame, hsees.node, CoreNode.inner_transaction, CoreNode.inner_idle]
    at hordered hversion hquiescent
  exact ⟨hordered, hversion, hquiescent⟩

/-- The replicas agree from the start: file events with writes may come while the nodes are still being
    connected, as long as each comes to a node that is connected. If besides no `REQUEST` is handled in the
    window of `requestCS`, the lists of writes executed begin each other and give the versions; and if the
    transactions come one after another, then at rest every node holds all writes, in the order in which they
    were submitted. -/
theorem agreement_from_start (P : Plan) (s : State) (h : Core.Hist) :
    (Reachable (historySystem P) (Guard.past (runs P Core.quietRuns)) (s, h) →
      Core.Agreement P.mesh s.core h) ∧
    (Reachable (historySystem P) (Guard.past (runs P (Core.sequentialRuns P.mesh))) (s, h) →
      Core.Agreement P.mesh s.core h ∧
        ((∀ p ∈ P.cores, (s.core.node p).idle = true) → h.submitted = h.entered)) := by
  refine ⟨?_, ?_⟩
  · intro hs
    have hfits := (startInv (hs.forget.mono runs_afterConnect)).fits
    obtain ⟨c, hsees, hc⟩ := seen (K := fun _ => Core.quietRuns)
      (allows_clients.and (allows_fifo.and allows_quietSend)) hs hfits
    exact agreement_of_sees hsees hfits.same (Core.agreement hc)
  · intro hs
    have hfits := (startInv (hs.forget.mono runs_afterConnect)).fits
    obtain ⟨c, hsees, hc⟩ := seen (K := Core.sequentialRuns)
      (allows_clients.and (allows_fifo.and allows_sequential)) hs hfits
    refine ⟨agreement_of_sees hsees hfits.same (Core.agreement (Core.quiet_of_sequential hc)), ?_⟩
    intro hidle
    refine Core.submitted_eq (fun _ _ hg => hg.2.2) hc ?_
    intro p hp
    rw [hsees.node]
    exact hidle p (hfits.same ▸ hp)

/-- The write is executed everywhere, and `ExecuteTransaction` has returned. -/
def earlyWrite : List Label :=
  early ++ List.replicate 7 (.core (.requester 8889)) ++
    [.core (.handle 8888 8889 0), .core (.handle 8890 8889 0), .core (.handle 8889 8888 0),
      .core (.handle 8889 8890 0)] ++ List.replicate 7 (.core (.requester 8889))

theorem agreement_from_start_earlyWrite : ∃ s h,
    Reachable (historySystem Plan.controller)
      (Guard.past (runs Plan.controller (Core.sequentialRuns Plan.controller.mesh))) (s, h) ∧
    s.layers 8890 CORE_LAYER = [8889] ∧ h.entered = [(8889, ⟨.sum, 5⟩)] ∧
    (s.core.node 8888).transaction = ⟨5⟩ ∧ (s.core.node 8890).transaction = ⟨5⟩ := by
  obtain ⟨⟨s, h⟩, -, hs, hP⟩ := Reachable.of_exec (historySystem Plan.controller)
    (Guard.past (runs Plan.controller (Core.sequentialRuns Plan.controller.mesh)))
    (init Plan.controller, Core.Hist.empty) earlyWrite
    (fun x => x.1.layers 8890 CORE_LAYER == [8889] && x.2.submitted == [(8889, ⟨.sum, 5⟩)] &&
      Plan.controller.cores.all fun p => (x.1.core.node p).idle) ⟨rfl, rfl⟩ (by decide +kernel)
  simp only [Bool.and_eq_true, beq_iff_eq, List.all_eq_true] at hP
  obtain ⟨⟨htable, hsubmitted⟩, hidle⟩ := hP
  obtain ⟨hagree, horder⟩ := (agreement_from_start Plan.controller s h).2 hs
  have hentered : h.entered = [(8889, ⟨.sum, 5⟩)] := (horder hidle).symm.trans hsubmitted
  have hall := (hagree.quiescent hidle).1
  rw [hentered] at hall
  exact ⟨s, h, hs, htable, hentered, hall 8888 (by decide), hall 8890 (by decide)⟩

end StartUp
end Epidemica
