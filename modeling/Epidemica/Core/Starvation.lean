import Epidemica.Core.Progress
import Epidemica.Core.Sequential
import Epidemica.Mutex.Waiting
import Mathlib.Data.Finset.Max
import Mathlib.Data.Countable.Basic
import Mathlib.Data.Prod.Lex

/-!
# `Core.Starvation` — every transaction returns

In a fair run, with waits that test their predicate again and again, no client thread waits for ever:

- at the wait for the `READY`s, each peer's `READY` comes and is counted, and the count stays full
  (`not_frozen_ready`);
- of the threads that wait for the critical section for ever, take the one with the least request. Every
  peer answers it with a later clock, and every request that comes before it is released in the end. Then
  its test stays true (`not_frozen_wait`).

Nothing is assumed about the order of steps, and transactions may be submitted for ever.
-/

namespace Epidemica
namespace Core

open Network Transition Filter

section
variable {net : Mesh} {G : Guard State Label} {ρ : Path (system net) G} {s s' : State} {l : Label}
  {p q : Int} {cs : CsPc} {t : Int}

/-! ## Waiting for the `READY`s -/

/-- The thread of `p` stands at the wait for the `READY`s. -/
def AtReady (p : Int) (s : State) : Prop :=
  (s.node p).mutex.pc.isInCS = true ∧ (s.node p).cs = .waitReady

/-- There the count only grows. -/
theorem AtReady.finishedNodes_le (h : AtReady p s) (hst : (system net).step s l = some s') :
    (s.node p).finishedNodes ≤ (s'.node p).finishedNodes := by
  obtain ⟨hin, hcs⟩ := h
  cases l with
  | submit a d =>
    obtain ⟨-, hidle, rfl⟩ := step_submit hst
    have hpa : p ≠ a := by
      rintro rfl
      obtain ⟨u, hpc⟩ := Pc.isInCS_iff.mp hin
      simp [CoreNode.idle, hpc] at hidle
    simp [hpa]
  | requester a =>
    obtain ⟨-, -, rfl⟩ := step_requester hst
    by_cases hpa : p = a
    · subst hpa
      have hfin : ((s.node p).requester (net.layers p) p).1.finishedNodes = (s.node p).finishedNodes := by
        simp only [CoreNode.requester, hin, hcs, CoreNode.critical]
        by_cases hfull : (s.node p).finishedNodes = (net.layers p CORE_LAYER).length <;> simp [hfull]
      simp [hfin]
    · simp [hpa]
  | handle a x i =>
    obtain ⟨-, -, m, hm, rfl⟩ := step_handle hst
    by_cases hpa : p = a
    · subst hpa
      rw [put_node, if_pos rfl, CoreNode.handleMsg_finishedNodes]
      split <;> omega
    · simp [hpa]
  | drain a b =>
    obtain ⟨-, -, rfl⟩ := step_drain net.layers hst
    exact Int.le_refl _

/-- A `READY` at the head of its connection is counted when it is handled. -/
theorem finishedNodes_ready (hst : (system net).step s (.handle p q 0) = some s') {m : Msg}
    (hm : (s.chan q p).head? = some m) (hready : m.isReady = true) :
    (s'.node p).finishedNodes = (s.node p).finishedNodes + 1 := by
  obtain ⟨-, -, y, hy, rfl⟩ := step_handle hst
  obtain rfl : y = m := by
    rw [List.head?_eq_getElem?] at hm
    exact Option.some.inj (hy.symm.trans hm)
  rw [put_node, if_pos rfl, CoreNode.handleMsg_finishedNodes, hready, if_pos rfl]

/-- A write at the head of its connection is answered when it is handled. -/
theorem ready_of_write (hp : p ∈ net.cores) (hq : q ∈ net.cores)
    (hst : (system net).step s (.handle q p 0) = some s') {m : Msg}
    (hm : (s.chan p q).head? = some m) (hwrite : m.write?.isSome = true) :
    0 < readysIn (s'.chan q p) := by
  obtain ⟨-, hpq, y, hy, rfl⟩ := step_handle hst
  obtain rfl : y = m := by
    rw [List.head?_eq_getElem?] at hm
    exact Option.some.inj (hy.symm.trans hm)
  obtain ⟨-, hready⟩ := CoreNode.handleMsg_select (L := net.layers q) (n := s.node q) q y p p
    fun hb => net.below q hq p hb hp
  rw [put_chan, if_pos rfl, readysIn_append, hready, if_pos ⟨rfl, hwrite⟩]
  omega

/-- Nobody waits for `READY`s for ever. -/
theorem not_frozen_ready (hG : Admits G) (hp : p ∈ net.cores) (hfair : ρ.Fair works)
    (h : Frozen ρ p (.inCS t) .waitReady) : False := by
  obtain ⟨i, hi⟩ := eventually_atTop.mp h
  have hat : ∀ j, i ≤ j → AtReady p (ρ.state j) := by
    intro j hij
    obtain ⟨hpc, hcs⟩ := hi j hij
    exact ⟨by rw [hpc]; rfl, hcs⟩
  have hcount : ∀ j, i ≤ j → ((ρ.state j).node p).finishedNodes +
      ((net.peers p).map (inflight (ρ.state j) p)).sum = (net.peers p).length := by
    intro j hij
    obtain ⟨hin, hcs⟩ := hat j hij
    obtain ⟨-, -, -, -, -, hadd⟩ :=
      (readyInv hG.clients hp (ρ.reachable j)).busy [] (by simp [CoreNode.pending?, hin, hcs])
    simpa using hadd
  have hgrow : ∀ j k, i ≤ j → j ≤ k →
      ((ρ.state j).node p).finishedNodes ≤ ((ρ.state k).node p).finishedNodes := by
    intro j k hij hjk
    induction k, hjk using Nat.le_induction with
    | base => exact Int.le_refl _
    | succ k hjk ih =>
      have hnext := ρ.next
        (R := fun s s' => AtReady p s → (s.node p).finishedNodes ≤ (s'.node p).finishedNodes)
        (fun _ _ => Int.le_refl _) (fun _ _ _ _ _ hst hat => hat.finishedNodes_le hst) k
      exact Int.le_trans ih (hnext (hat k (Nat.le_trans hij hjk)))
  -- a `READY` under way is counted in the end
  have hready : ∀ j, i ≤ j → ∀ x ∈ net.peers p, 0 < readysIn ((ρ.state j).chan x p) →
      ∃ k, j ≤ k ∧ ((ρ.state j).node p).finishedNodes < ((ρ.state k).node p).finishedNodes := by
    intro j hij x hx hpos
    obtain ⟨m, hm, hmr⟩ := List.countP_pos_iff.mp hpos
    obtain ⟨k, hjk, hlabel, hhead⟩ :=
      (connection hG hp hx).delivered_of_mem hfair trivial (i := j) (m := m) hm
    have hmove := ρ.taken hlabel
    have hone := finishedNodes_ready hmove.2 hhead hmr
    have hle := hgrow j k hij hjk
    exact ⟨k + 1, by omega, by omega⟩
  -- as long as the count is not full, it grows again
  have hmore : ∀ j, i ≤ j → ((ρ.state j).node p).finishedNodes ≠ (net.peers p).length →
      ∃ k, j ≤ k ∧ ((ρ.state j).node p).finishedNodes < ((ρ.state k).node p).finishedNodes := by
    intro j hij hne
    have hsum : ((net.peers p).map (inflight (ρ.state j) p)).sum ≠ 0 := by
      have := hcount j hij
      omega
    obtain ⟨x, hx, hxpos⟩ : ∃ x ∈ net.peers p, inflight (ρ.state j) p x ≠ 0 := by
      by_contra hnone
      apply hsum
      rw [List.sum_eq_zero_iff_forall_eq_nat]
      intro n hn
      obtain ⟨x, hx, rfl⟩ := List.mem_map.mp hn
      by_contra hne
      exact hnone ⟨x, hx, hne⟩
    obtain ⟨hxc, hxp⟩ := (net.mem_peers hp).mp hx
    by_cases hpos : 0 < readysIn ((ρ.state j).chan x p)
    · exact hready j hij x hx hpos
    · have hwrites : writesIn ((ρ.state j).chan p x) ≠ [] := by
        intro hnil
        apply hxpos
        unfold inflight
        rw [hnil]
        simp only [List.length_nil]
        omega
      obtain ⟨d, hd⟩ := List.exists_mem_of_ne_nil _ hwrites
      obtain ⟨m, hm, hmw⟩ := List.mem_filterMap.mp hd
      have hpx : p ∈ net.peers x := (net.mem_peers hxc).mpr ⟨hp, hxp.symm⟩
      obtain ⟨k, hjk, hlabel, hhead⟩ :=
        (connection hG hxc hpx).delivered_of_mem hfair trivial (i := j) (m := m) hm
      have hmove := ρ.taken hlabel
      have hsent := ready_of_write hp hxc hmove.2 hhead (by rw [hmw]; rfl)
      obtain ⟨k', hk', hlt⟩ := hready (k + 1) (by omega) x hx hsent
      have hle := hgrow j (k + 1) hij (by omega)
      exact ⟨k', by omega, by omega⟩
  -- so it gets full, and the test stays true
  obtain ⟨j, hij, hfull⟩ : ∃ j, i ≤ j ∧ ((ρ.state j).node p).finishedNodes = (net.peers p).length := by
    refine Path.leads_of_measure (P := fun j => i ≤ j)
      (fun j => ((net.peers p).length - ((ρ.state j).node p).finishedNodes).toNat) ?_ (Nat.le_refl i)
    intro j hij
    by_cases hne : ((ρ.state j).node p).finishedNodes = (net.peers p).length
    · exact ⟨j, Nat.le_refl j, Or.inl hne⟩
    · obtain ⟨k, hjk, hlt⟩ := hmore j hij hne
      have hle := hcount j hij
      exact ⟨k, hjk, Or.inr ⟨by omega, by omega⟩⟩
  obtain ⟨k, hjk, -, hwakes⟩ := frequently_atTop.mp (h.standing hG hp hfair (by simp)) j
  obtain ⟨hin, hcs⟩ := hat k (by omega)
  have hle := hgrow j k hij hjk
  have hmax := hcount k (by omega)
  exact hwakes (Or.inr ⟨hin, hcs, show _ = ((net.peers p).length : Int) by omega⟩)

/-! ## Answers to a request that waits -/

theorem mutex_reachable (hG : Admits G) (hs : Reachable (system net) G s) :
    Reachable (Mutex.system net) (Mutex.handling Mutex.anyMessage) (mutexes net s) :=
  (mutexSim hG.clients hG.fifo handlingMutex_any).reachable hs

/-- What every step of the mutexes preserves stays along a path of the core layer. -/
theorem mutex_stable (hG : Admits G) {I : Mutex.State → Prop}
    (hstep : ∀ s l s', I s → (Mutex.system net).step s l = some s' → I s') {i j : ℕ} (hij : i ≤ j)
    (h : I (mutexes net (ρ.state i))) : I (mutexes net (ρ.state j)) := by
  refine ρ.stable (P := fun s => I (mutexes net s)) ?_ hij h
  intro s l s' hs hI hg hst
  exact Run.preserves (fun s l s' hI _ hst => hstep s l s' hI hst)
    (mutexes_step hG.clients hG.fifo handlingMutex_any hs hg hst) hI

theorem entry_stable (hG : Admits G) (hqp : q ≠ p) {i j : ℕ} (hij : i ≤ j)
    (h : t < ((ρ.state i).node p).mutex.lamport.clock.getValue q) :
    t < ((ρ.state j).node p).mutex.lamport.clock.getValue q := by
  refine mutex_stable hG (I := fun s => t < (s.node p).lamport.clock.getValue q) ?_ hij h
  intro s l s' hlt hst
  rcases Mutex.node_step (Mutex.handling_anyMessage s l) hst p with heq | hstep
  · rw [heq]
    exact hlt
  · exact Int.lt_of_lt_of_le hlt (Mutex.entry_step hqp hstep)

theorem late_stable (hG : Admits G) {i j : ℕ} (hij : i ≤ j)
    (h : Mutex.Late t p q ((ρ.state i).node q).mutex) : Mutex.Late t p q ((ρ.state j).node q).mutex := by
  refine mutex_stable hG (I := fun s => Mutex.Late t p q (s.node q)) ?_ hij h
  intro s l s' hlate hst
  rcases Mutex.node_step (Mutex.handling_anyMessage s l) hst q with heq | hstep
  · rw [heq]
    exact hlate
  · exact hlate.step hstep

/-- Handling a message of the mutex. -/
theorem mutex_handled (hst : (system net).step s (.handle p q 0) = some s') {m : Msg}
    (hm : (s.chan q p).head? = some m) (hmutex : m.isMutex = true) :
    (s'.node p).mutex = ((s.node p).mutex.handle p m.value q m.tag).1 ∧
      (q ≠ p → s'.chan p q = s.chan p q ++ select q ((s.node p).mutex.handle p m.value q m.tag).2) := by
  obtain ⟨-, -, y, hy, rfl⟩ := step_handle hst
  obtain rfl : y = m := by
    rw [List.head?_eq_getElem?] at hm
    exact Option.some.inj (hy.symm.trans hm)
  have hhandle : (s.node p).handleMsg (net.layers p) p y.value q y.tag = _ := handleMsg_mutex hmutex
  rw [hhandle]
  refine ⟨by simp, ?_⟩
  intro hqp
  have hother : ¬ (p = q ∧ q = p) := fun h => hqp h.2
  simp [hother]

/-- A later clock that is under way arrives. -/
theorem entry_of_flight (hG : Admits G) (hp : p ∈ net.cores) (hq : q ∈ net.peers p)
    (hfair : ρ.Fair works) {i : ℕ} {m : Msg} (hm : m ∈ (ρ.state i).chan q p) (hmutex : m.isMutex = true)
    (hlt : t < m.value) : ∃ j, t < ((ρ.state j).node p).mutex.lamport.clock.getValue q := by
  obtain ⟨k, -, hlabel, hhead⟩ := (connection hG hp hq).delivered_of_mem hfair trivial (i := i) (m := m) hm
  have hmove := ρ.taken hlabel
  refine ⟨k + 1, ?_⟩
  rw [(mutex_handled hmove.2 hhead hmutex).1,
    MutexNode.handle_clock_sender _ _ _ ((net.mem_peers hp).mp hq).2]
  omega

/-- A request that waits is answered by every peer with a later clock. -/
theorem eventually_entry (hG : Admits G) (hp : p ∈ net.cores) (hq : q ∈ net.peers p)
    (hfair : ρ.Fair works) (h : Frozen ρ p (.wait t) cs) :
    ∀ᶠ i in atTop, t < ((ρ.state i).node p).mutex.lamport.clock.getValue q := by
  obtain ⟨hqc, hqp⟩ := (net.mem_peers hp).mp hq
  have hpq : p ∈ net.peers q := (net.mem_peers hqc).mpr ⟨hp, hqp.symm⟩
  obtain ⟨i, hi⟩ := eventually_atTop.mp h
  obtain ⟨j, hj⟩ : ∃ j, t < ((ρ.state j).node p).mutex.lamport.clock.getValue q := by
    have htold : ((mutexes net (ρ.state i)).node p).pc.told q = some t := by
      show ((ρ.state i).node p).mutex.pc.told q = some t
      rw [(hi i (Nat.le_refl i)).1]
      rfl
    have hlink := Mutex.linkInv (mutex_reachable hG (ρ.reachable i)) hp hqc hqp.symm
    rcases hlink.acked t htold with hrequest | ⟨m, hm, hlt⟩ | hlt
    · -- the `REQUEST` is handled, and the acknowledgement is under way
      have hrequest : (⟨.request, t⟩ : Msg) ∈ (ρ.state i).chan p q := by
        simp only [Mutex.State.link, mutexes, hp, hqc, and_self, if_true, List.mem_filter] at hrequest
        exact hrequest.1
      obtain ⟨k, -, hlabel, hhead⟩ :=
        (connection hG hqc hpq).delivered_of_mem hfair trivial (i := i) (m := ⟨.request, t⟩) hrequest
      have hmove := ρ.taken hlabel
      have hsent := (mutex_handled hmove.2 hhead rfl).2 hqp.symm
      have hack : (⟨.ack, (((ρ.state k).node q).mutex.handle q t p .request).1.lamport.clock.getValue q⟩ :
          Msg) ∈ (ρ.state (k + 1)).chan q p := by
        rw [hsent, Mutex.select_handle, if_pos rfl]
        simp [MutexNode.handle]
      refine entry_of_flight hG hp hq hfair hack rfl ?_
      show t < (((ρ.state k).node q).mutex.handle q t p .request).1.lamport.clock.getValue q
      rw [MutexNode.handle_clock_self _ _ _ hqp.symm]
      omega
    · have hm : m ∈ (ρ.state i).chan q p ∧ m.isMutex = true := by
        simpa only [Mutex.State.link, mutexes, hp, hqc, and_self, if_true, List.mem_filter] using hm
      exact entry_of_flight hG hp hq hfair hm.1 hm.2 hlt
    · exact ⟨i, hlt⟩
  exact eventually_atTop.mpr ⟨j, fun k hjk => entry_stable hG hqp hjk hj⟩

/-! ## Requests that come before it -/

theorem passed_stable (hG : Admits G) (hqp : q ≠ p) {i j : ℕ} (hij : i ≤ j)
    (h : Mutex.Passed t p q ((mutexes net (ρ.state i)).link q p)) :
    Mutex.Passed t p q ((mutexes net (ρ.state j)).link q p) := by
  refine mutex_stable hG (I := fun s => Mutex.Passed t p q (s.link q p)) ?_ hij h
  intro s l s' hpassed hst
  rcases Mutex.link_step (Mutex.handling_anyMessage s l) hst hqp with heq | hleft | hright
  · rw [heq]
    exact hpassed
  · exact hpassed.left hqp hleft
  · exact hpassed.right hqp hright

/-- A `REQUEST` that leaves a node carries the request its thread is making. -/
theorem ticks?_of_sent {L : Layers} {me b : Int} {n : CoreNode} {m : Msg}
    (hm : m ∈ select b (n.requester L me).2) (htag : m.tag = .request) :
    n.mutex.pc.ticks? = some m.value := by
  unfold CoreNode.requester at hm
  split at hm
  · obtain ⟨mx, cs, d, tr, wc, fin⟩ := n
    rcases cs with ⟨_ | ⟨x, todo⟩⟩ | _ | _ | _ | _ | ⟨_, _ | ⟨x, todo⟩⟩ | _ | _ | _ | _ <;>
      simp only [CoreNode.critical] at hm
    case sendWrite.cons =>
      -- the tag of a transaction is not `REQUEST`
      have hne : d.msg.tag ≠ .request := by
        cases htype : d.type <;> simp [TransactionData.msg, htype, TransactionType.tag]
      by_cases hx : x = b
      · obtain rfl : m = d.msg := by simpa [hx] using hm
        exact absurd htag hne
      · simp [hx] at hm
    case sendSet.cons => by_cases hx : x = b <;> simp_all
    case waitReady => split at hm <;> simp at hm
    all_goals simp at hm
  · exact Mutex.ticks?_of_request hm htag

/-- A thread that is not idle again and again waits for the critical section for ever. -/
theorem idle_or_frozen (hG : Admits G) (hq : q ∈ net.cores) (hfair : ρ.Fair works) :
    (∃ᶠ i in atTop, ((ρ.state i).node q).idle = true) ∨ ∃ u cs, Frozen ρ q (.wait u) cs := by
  by_cases hidle : ∃ᶠ i in atTop, ((ρ.state i).node q).idle = true
  · exact Or.inl hidle
  · right
    have hbusy : ∀ᶠ i in atTop, ((ρ.state i).node q).idle = false :=
      (not_frequently.mp hidle).mono fun _ h => Bool.eq_false_iff.mpr h
    obtain ⟨pc, cs, hpc, hfrozen⟩ := frozen_of_busy hbusy
    obtain ⟨i, ⟨hstand, -⟩, rfl, rfl⟩ := ((hfrozen.standing hG hq hfair hpc).and_eventually hfrozen).exists
    simp only [CoreNode.standing, Bool.or_eq_true, Bool.and_eq_true, decide_eq_true_eq] at hstand
    rcases hstand with hwait | ⟨hin, hready⟩
    · obtain ⟨u, hu⟩ := Pc.isWait_iff.mp hwait
      exact ⟨u, _, hu ▸ hfrozen⟩
    · obtain ⟨u, hu⟩ := Pc.isInCS_iff.mp hin
      exact absurd (hready ▸ hu ▸ hfrozen) (not_frozen_ready hG hq hfair)

/-- The least of the requests that wait for ever. -/
def Least (ρ : Path (system net) G) (t p : Int) : Prop :=
  ∀ q ∈ net.cores, ∀ u cs, Frozen ρ q (.wait u) cs → isGreater t p u q = false

/-- All that a peer asks for in the end comes after it. -/
theorem eventually_late (hG : Admits G) (hp : p ∈ net.cores) (hq : q ∈ net.peers p)
    (hfair : ρ.Fair works) (h : Frozen ρ p (.wait t) cs) (hleast : Least ρ t p) :
    ∀ᶠ i in atTop, Mutex.Late t p q ((ρ.state i).node q).mutex := by
  obtain ⟨hqc, hqp⟩ := (net.mem_peers hp).mp hq
  have hclock : ∀ᶠ i in atTop, t < ((ρ.state i).node q).mutex.lamport.clock.getValue q := by
    refine (eventually_entry hG hp hq hfair h).mono fun i hentry => ?_
    exact Int.lt_of_lt_of_le hentry
      (Mutex.linkInv (mutex_reachable hG (ρ.reachable i)) hqc hp hqp).entry_le
  obtain ⟨i, hlate⟩ : ∃ i, Mutex.Late t p q ((ρ.state i).node q).mutex := by
    rcases idle_or_frozen hG hqc hfair with hidle | ⟨u, cs', hfrozen⟩
    · obtain ⟨i, hidle, hclock⟩ := (hidle.and_eventually hclock).exists
      have hpc : ((ρ.state i).node q).mutex.pc = .idle := by simpa [CoreNode.idle] using hidle
      exact ⟨i, by simp [hpc, Pc.ticks?], hclock⟩
    · obtain ⟨i, ⟨hpc, -⟩, hclock⟩ := (hfrozen.and hclock).exists
      refine ⟨i, ?_, hclock⟩
      intro v hv
      obtain rfl : u = v := by simpa [hpc, Pc.ticks?] using hv
      exact hleast q hqc u cs' hfrozen
  exact eventually_atTop.mpr ⟨i, fun j hij => late_stable hG hij hlate⟩

/-- So in the end nothing of it is in the way. -/
theorem eventually_passed (hG : Admits G) (hp : p ∈ net.cores) (hq : q ∈ net.peers p)
    (hfair : ρ.Fair works) (h : Frozen ρ p (.wait t) cs) (hleast : Least ρ t p) :
    ∀ᶠ i in atTop, Mutex.Passed t p q ((mutexes net (ρ.state i)).link q p) := by
  obtain ⟨hqc, hqp⟩ := (net.mem_peers hp).mp hq
  have hlate := eventually_late hG hp hq hfair h hleast
  have hflight : ∀ᶠ i in atTop, ∀ m ∈ (ρ.state i).chan q p, m.tag = .request →
      isGreater t p m.value q = false := by
    refine (connection hG hp hq).settles hfair trivial (hlate.mono fun i hlate l new hlabel hputs => ?_)
    have hmove := ρ.taken hlabel
    intro m hm htag
    rcases connection_puts hG hp hq hmove.1 hmove.2 hputs m hm with ⟨-, hm⟩ | ⟨x, y, -, -, hm⟩
    · exact hlate.ticks _ (ticks?_of_sent hm htag)
    · exact absurd htag (CoreNode.handleMsg_no_request _ _ y x _ (mem_select.mp hm))
  obtain ⟨i, hi⟩ := eventually_atTop.mp (hlate.and hflight)
  have hlink : ∀ j, ∀ m ∈ ((mutexes net (ρ.state j)).link q p).out, m ∈ (ρ.state j).chan q p := by
    intro j m hm
    simp only [Mutex.State.link, mutexes, hp, hqc, and_self, if_true, List.mem_filter] at hm
    exact hm.1
  obtain ⟨j, hj⟩ : ∃ j, Mutex.Passed t p q ((mutexes net (ρ.state j)).link q p) := by
    by_cases hgood : ∀ u, ((ρ.state i).node p).mutex.lamport.requestQ q = some u →
        isGreater t p u q = false
    · obtain ⟨hlate, hflight⟩ := hi i (Nat.le_refl i)
      exact ⟨i, hlate, fun m hm => hflight m (hlink i m hm), hgood⟩
    · -- the entry that is in the way has been released, and the `RELEASE` arrives
      obtain ⟨u, hu⟩ := not_forall.mp hgood
      obtain ⟨hqu, hbad⟩ := Classical.not_imp.mp hu
      have hmirror := (Mutex.linkInv (mutex_reachable hG (ρ.reachable i)) hqc hp hqp).mirror
      have hqu : ((mutexes net (ρ.state i)).link q p).right.lamport.requestQ q = some u := hqu
      rw [hqu] at hmirror
      obtain ⟨m, hm, htag⟩ := Mutex.release_of_view hmirror fun htold =>
        hbad ((hi i (Nat.le_refl i)).1.ticks u (Mutex.ticks?_of_told htold))
      obtain ⟨k, hik, hlabel, hhead⟩ :=
        (connection hG hp hq).delivered_of_mem hfair trivial (i := i) (m := m) (hlink i m hm)
      have hmove := ρ.taken hlabel
      have hnode := (mutex_handled hmove.2 hhead (by simp [Msg.isMutex, htag])).1
      obtain ⟨hlate, hflight⟩ := hi (k + 1) (by omega)
      refine ⟨k + 1, hlate, fun m hm => hflight m (hlink (k + 1) m hm), ?_⟩
      intro v hv
      have hv : ((ρ.state (k + 1)).node p).mutex.lamport.requestQ q = some v := hv
      rw [hnode, htag] at hv
      simp [MutexNode.handle, LamportMutex.handleMsg_requestQ] at hv
  exact eventually_atTop.mpr ⟨j, fun k hjk => passed_stable hG hqp hjk hj⟩

/-- The least request does not wait for ever. -/
theorem not_frozen_least (hG : Admits G) (hp : p ∈ net.cores) (hfair : ρ.Fair works)
    (h : Frozen ρ p (.wait t) cs) (hleast : Least ρ t p) : False := by
  have hpeers : ∀ᶠ i in atTop, ∀ q ∈ net.peers p,
      Mutex.Passed t p q ((mutexes net (ρ.state i)).link q p) ∧
        t < ((ρ.state i).node p).mutex.lamport.clock.getValue q := by
    rw [eventually_forall_mem]
    intro q hq
    exact (eventually_passed hG hp hq hfair h hleast).and (eventually_entry hG hp hq hfair h)
  obtain ⟨i, ⟨-, hwakes⟩, ⟨hpc, -⟩, hpeers⟩ :=
    ((h.standing hG hp hfair (by simp)).and_eventually (h.and hpeers)).exists
  have hown : ((ρ.state i).node p).mutex.lamport.requestQ p = some t :=
    (Mutex.nodeInv (mutex_reachable hG (ρ.reachable i)) hp).own t (by simp [mutexes, hpc, Pc.own?])
  refine hwakes (Or.inl ⟨by simp [hpc, Pc.isWait], ?_⟩)
  rw [LamportMutex.okeyCS_iff hown]
  intro q hq
  obtain ⟨hpassed, hentry⟩ := hpeers q hq
  refine ⟨hpassed.queue, ?_⟩
  rw [isGreater_eq_false]
  omega

theorem Frozen.wait_inj {u : Int} {cs' : CsPc} (h : Frozen ρ p (.wait t) cs)
    (h' : Frozen ρ p (.wait u) cs') : t = u := by
  obtain ⟨i, ⟨hpc, -⟩, ⟨hpc', -⟩⟩ := (h.and h').exists
  exact Pc.wait.inj (hpc.symm.trans hpc')

/-- If threads wait for ever, one of them waits with the least request. -/
theorem exists_least_frozen (hp : p ∈ net.cores) (h : Frozen ρ p (.wait t) cs) :
    ∃ q ∈ net.cores, ∃ u cs, Frozen ρ q (.wait u) cs ∧ Least ρ u q := by
  classical
  have hsome : ∀ q, ∃ u, (∃ v cs, Frozen ρ q (.wait v) cs) → ∃ cs, Frozen ρ q (.wait u) cs := by
    intro q
    by_cases hq : ∃ v cs, Frozen ρ q (.wait v) cs
    · obtain ⟨v, hv⟩ := hq
      exact ⟨v, fun _ => hv⟩
    · exact ⟨0, fun h => absurd h hq⟩
  choose ticks hticks using hsome
  -- requests are ordered by ticks, then by id, as `isGreater` compares them
  obtain ⟨q, hq, hmin⟩ := Finset.exists_min_image
    (net.cores.toFinset.filter fun q => ∃ u cs, Frozen ρ q (.wait u) cs)
    (fun q => toLex (ticks q, q)) ⟨p, Finset.mem_filter.mpr ⟨List.mem_toFinset.mpr hp, t, cs, h⟩⟩
  obtain ⟨hqc, hfrozen⟩ := Finset.mem_filter.mp hq
  obtain ⟨cs', hcs'⟩ := hticks q hfrozen
  refine ⟨q, List.mem_toFinset.mp hqc, ticks q, cs', hcs', ?_⟩
  intro x hx v cs'' hx'
  obtain ⟨_, hxt⟩ := hticks x ⟨v, cs'', hx'⟩
  obtain rfl := hx'.wait_inj hxt
  have hle := hmin x (Finset.mem_filter.mpr ⟨List.mem_toFinset.mpr hx, _, cs'', hx'⟩)
  rw [Prod.Lex.toLex_le_toLex] at hle
  rw [isGreater_eq_false]
  omega

/-- Nobody waits for the critical section for ever. -/
theorem not_frozen_wait (hG : Admits G) (hp : p ∈ net.cores) (hfair : ρ.Fair works)
    (h : Frozen ρ p (.wait t) cs) : False := by
  obtain ⟨q, hq, u, cs', hfrozen, hleast⟩ := exists_least_frozen hp h
  exact not_frozen_least hG hq hfair hfrozen hleast

theorem frequently_idle (hG : Admits G) (hp : p ∈ net.cores) (hfair : ρ.Fair works) :
    ∃ᶠ i in atTop, ((ρ.state i).node p).idle = true := by
  rcases idle_or_frozen hG hp hfair with hidle | ⟨u, cs, hfrozen⟩
  · exact hidle
  · exact absurd hfrozen fun h => not_frozen_wait hG hp hfair h

/-! ## The result -/

/-- Every client thread is idle again and again: whatever is submitted, each call of `ExecuteTransaction`
    returns. -/
theorem no_starvation (net : Mesh) (ρ : Path (system net) (fun s l => clients s l ∧ fifo s l))
    (hfair : ρ.Fair works) (p : Int) (hp : p ∈ net.cores) (i : ℕ) :
    ∃ j, i ≤ j ∧ ((ρ.state j).node p).idle = true :=
  frequently_atTop.mp (frequently_idle admits_fifo hp hfair) i

/-- The labels that fairness is about, by number. -/
def workName : (Int ⊕ Int × Int × ℕ) → Label
  | .inl p => .requester p
  | .inr (p, q, i) => .handle p q i

theorem works_workName (x : Int ⊕ Int × Int × ℕ) : works (workName x) := by
  rcases x with p | ⟨p, q, i⟩ <;> trivial

theorem exists_workName (l : Label) (hl : works l) : ∃ x, workName x = l := by
  cases l with
  | submit _ _ | drain _ _ => exact hl.elim
  | requester p => exact ⟨.inl p, rfl⟩
  | handle p q i => exact ⟨.inr (p, q, i), rfl⟩

/-- Two nodes ask at once, and both come to stand at the wait. -/
def bothAsk : List Label :=
  let asks (p : Int) := List.replicate 4 (Label.requester p)
  List.flatten [[.submit 1 ⟨.sum, 5⟩, .submit 2 ⟨.multiply, 3⟩], asks 1, asks 2]

theorem no_starvation_bothAsk :
    ∃ (ρ : Path (system Mesh.two) (fun s l => clients s l ∧ fifo s l)) (n : ℕ), ρ.Fair works ∧
      ((ρ.state n).node 1).mutex.pc.isWait = true ∧ ((ρ.state n).node 2).mutex.pc.isWait = true ∧
      ∃ j, n ≤ j ∧ ((ρ.state j).node 2).idle = true := by
  obtain ⟨s, -, hs, hP⟩ := Reachable.of_exec (system Mesh.two)
    (fun s l => clients s l ∧ fifo s l) init bothAsk
    (fun s => (s.node 1).mutex.pc.isWait && (s.node 2).mutex.pc.isWait) rfl (by decide)
  rw [Bool.and_eq_true] at hP
  obtain ⟨ρ, n, hfair, rfl, -⟩ := exists_fair workName works_workName exists_workName hs
  exact ⟨ρ, n, hfair, hP.1, hP.2, no_starvation Mesh.two ρ hfair 2 (by decide) n⟩

end

end Core
end Epidemica
