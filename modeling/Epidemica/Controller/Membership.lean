import Epidemica.Controller.StartUp
import Epidemica.Core.Projection
import Mathlib.Data.List.Nodup

/-!
# `Controller.Membership` — no write escapes replication during start-up

For two core nodes `p` and `q` there is one ticket for the entry of `q` in the table of `p`: it is a
statement of the script, then perhaps a handshake on its way, and at last the entry itself (`tickets`).
So a node whose connecting statements are done and whose handshakes are processed has every other core
node in its table, once.

A handshake is not lost on its way as long as nothing is sent ahead of it. That is where the condition on
file events is needed: the two ends of a connection that is not made yet are idle, and neither has sent
the other anything (`StartInv.quiet`).
-/

namespace Epidemica
namespace StartUp

open Network Transition

/-- The tickets for the entry of `q` in the core layer of `p`. -/
def tickets (s : State) (p q : Int) : Nat :=
  s.todo.count (.register p q CORE_LAYER) + s.todo.count (.handshake q p CORE_LAYER) +
    (s.hello q p).length + (s.layers p CORE_LAYER).count q

/-- What holds throughout the start-up: what is left of the script, the handshakes under way and the tables
    together list every connection of the core layer once. -/
structure StartInv (P : Plan) (s : State) : Prop where
  script : ∀ x ∈ s.todo, x ∈ P.script
  /-- One ticket for every other core node, and none for anything else. -/
  tickets : ∀ p ∈ P.cores, ∀ q, tickets s p q = if q ∈ P.cores ∧ q ≠ p then 1 else 0
  /-- Handshakes to a core node are for the core layer, with nothing ahead of them. -/
  hello : ∀ p ∈ P.cores, ∀ q, ∀ h ∈ s.hello q p, h.level = CORE_LAYER ∧ h.clean = true
  /-- The ends of a connection that is still to be made have not sent each other anything. -/
  quiet : ∀ p ∈ P.cores, ∀ q ∈ P.cores, .handshake p q CORE_LAYER ∈ s.todo →
    s.core.chan p q = [] ∧ s.core.chan q p = []
  /-- A node at work is connected. -/
  busy : ∀ p ∈ P.cores, (s.core.node p).idle = false → connected P s p
  /-- Nodes of the layer below are no core nodes. -/
  below : ∀ p ∈ P.cores, ∀ b ∈ s.layers p LAYER_ONE, b ∉ P.cores

variable {P : Plan} {s t : State} {p q : Int}

theorem startInv_init (P : Plan) : StartInv P (init P) where
  script _ hx := hx
  tickets p hp q := by
    rw [← P.once p hp q]
    rfl
  hello p _ q h hh := absurd hh (by simp [init])
  quiet p _ q _ _ := ⟨rfl, rfl⟩
  busy p _ h := absurd h (by simp [init, Core.init, CoreNode.init, MutexNode.init, CoreNode.idle])
  below p _ b hb := absurd hb (by simp [init])

/-! ## The statements of `Run` -/

section
variable {todo : List Stmt} {a b : Int} {layer : Fin 3}

theorem StartInv.register (hinv : StartInv P s) (htodo : s.todo = .register a b layer :: todo) :
    StartInv P { s with todo := todo, layers := push s.layers a layer b } := by
  have hmem : ∀ x ∈ todo, x ∈ s.todo := fun x hx => htodo ▸ List.mem_cons_of_mem _ hx
  refine ⟨fun x hx => hinv.script x (hmem x hx), ?_, hinv.hello, ?_, ?_, ?_⟩
  · intro p hp q
    rw [← hinv.tickets p hp q]
    simp only [StartUp.tickets, htodo, push_apply, List.count_cons, beq_iff_eq, Stmt.register.injEq,
      reduceCtorEq, if_false, Nat.add_zero]
    -- the ticket for this very entry is spent, and the entry is there; others are as before
    by_cases hpa : p = a ∧ CORE_LAYER = layer
    · obtain ⟨rfl, rfl⟩ := hpa
      rw [if_pos ⟨rfl, rfl⟩, List.count_append, List.count_singleton]
      by_cases hbq : b = q
      · simp [hbq]
        omega
      · simp [hbq]
    · rw [if_neg hpa, if_neg]
      · rfl
      · rintro ⟨rfl, -, rfl⟩
        exact hpa ⟨rfl, rfl⟩
  · intro p hp q hq h
    exact hinv.quiet p hp q hq (hmem _ h)
  · intro p hp hbusy
    obtain ⟨hdone, hhello⟩ := hinv.busy p hp hbusy
    exact ⟨fun x hx => hdone x (hmem x hx), hhello⟩
  · intro p hp c hc
    have hold := hinv.below p hp
    simp only [push_apply] at hc
    split at hc
    · rename_i hpa
      rcases List.mem_append.mp hc with hc | hc
      · exact hold c hc
      · -- a core node is not said to be in layer one
        obtain rfl : c = b := List.mem_singleton.mp hc
        intro hcore
        have hscript : Stmt.register a c layer ∈ P.script :=
          hinv.script _ (htodo ▸ List.mem_cons_self)
        have hlevel : layer = CORE_LAYER := P.level _ hscript (c, layer) rfl hcore
        exact absurd (hpa.2.trans hlevel) (by decide)
    · exact hold c hc

theorem StartInv.handshake (hinv : StartInv P s) (htodo : s.todo = .handshake a b layer :: todo) :
    StartInv P { s with
      todo := todo, hello := send s.hello a b ⟨layer, s.core.chan a b = []⟩ } := by
  have hmem : ∀ x ∈ todo, x ∈ s.todo := fun x hx => htodo ▸ List.mem_cons_of_mem _ hx
  have hhead : Stmt.handshake a b layer ∈ s.todo := htodo ▸ List.mem_cons_self
  have hlevel : b ∈ P.cores → layer = CORE_LAYER :=
    P.level _ (hinv.script _ hhead) (b, layer) rfl
  refine ⟨fun x hx => hinv.script x (hmem x hx), ?_, ?_, ?_, ?_, hinv.below⟩
  · intro p hp q
    rw [← hinv.tickets p hp q]
    simp only [StartUp.tickets, htodo, send_apply, List.count_cons, beq_iff_eq, Stmt.handshake.injEq,
      reduceCtorEq, if_false, Nat.add_zero]
    -- the ticket moves from the script to the handshake
    by_cases hqa : q = a ∧ p = b
    · obtain ⟨rfl, rfl⟩ := hqa
      simp [hlevel hp]
      omega
    · rw [if_neg hqa, if_neg]
      · rfl
      · rintro ⟨rfl, rfl, -⟩
        exact hqa ⟨rfl, rfl⟩
  · intro p hp q h hh
    simp only [send_apply] at hh
    split at hh
    · rename_i hqa
      obtain ⟨rfl, rfl⟩ := hqa
      rcases List.mem_append.mp hh with hh | hh
      · exact hinv.hello p hp q h hh
      · obtain rfl := List.mem_singleton.mp hh
        obtain rfl := hlevel hp
        -- the sender is a core node, for there is a ticket
        have hq : q ∈ P.cores := by
          by_contra hq
          have hnone := hinv.tickets p hp q
          rw [if_neg fun h => hq h.1, StartUp.tickets] at hnone
          have hcount : 0 < s.todo.count (.handshake q p CORE_LAYER) := List.count_pos_iff.mpr hhead
          omega
        exact ⟨rfl, decide_eq_true (hinv.quiet q hq p hp hhead).1⟩
    · exact hinv.hello p hp q h hh
  · intro p hp q hq h
    exact hinv.quiet p hp q hq (hmem _ h)
  · intro p hp hbusy
    obtain ⟨hdone, hhello⟩ := hinv.busy p hp hbusy
    refine ⟨fun x hx => hdone x (hmem x hx), ?_⟩
    intro q hq
    simp only [send_apply]
    split
    · rename_i hqa
      obtain ⟨rfl, rfl⟩ := hqa
      obtain rfl := hlevel hp
      have hnot := hdone _ hhead
      exact absurd hnot (by simp [Stmt.links])
    · exact hhello q hq

theorem StartInv.start (hinv : StartInv P s) (htodo : s.todo = .start a :: todo) :
    StartInv P { s with todo := todo } := by
  have hmem : ∀ x ∈ todo, x ∈ s.todo := fun x hx => htodo ▸ List.mem_cons_of_mem _ hx
  refine ⟨fun x hx => hinv.script x (hmem x hx), ?_, hinv.hello, ?_, ?_, hinv.below⟩
  · intro p hp q
    rw [← hinv.tickets p hp q]
    simp [StartUp.tickets, htodo]
  · intro p hp q hq h
    exact hinv.quiet p hp q hq (hmem _ h)
  · intro p hp hbusy
    obtain ⟨hdone, hhello⟩ := hinv.busy p hp hbusy
    exact ⟨fun x hx => hdone x (hmem x hx), hhello⟩

end

/-! ## The handshakes -/

theorem StartInv.accept (hinv : StartInv P s) {a b : Int} {h : Handshake} {rest : List Handshake}
    (hhello : s.hello a b = h :: rest) :
    StartInv P { s with
      hello := receive s.hello a b 0
      layers := if h.clean then push s.layers b h.level a else s.layers } := by
  have hhead : h ∈ s.hello a b := hhello ▸ List.mem_cons_self
  -- a core node enters the sender in its core layer
  have hlayers : ∀ p ∈ P.cores, ∀ k,
      (if h.clean then push s.layers b h.level a else s.layers) p k =
        if p = b ∧ k = CORE_LAYER then s.layers p k ++ [a] else s.layers p k := by
    intro p hp k
    by_cases hpb : p = b
    · subst hpb
      obtain ⟨hlevel, hclean⟩ := hinv.hello p hp a h hhead
      rw [if_pos hclean, push_apply, hlevel]
    · -- the table of another node is not touched
      have hother : ∀ k' : Fin 3, ¬ (p = b ∧ k = k') := fun k' hpk => hpb hpk.1
      rw [if_neg (hother _)]
      split
      · rw [push_apply, if_neg (hother _)]
      · rfl
  refine ⟨hinv.script, ?_, ?_, hinv.quiet, ?_, ?_⟩
  · intro p hp q
    rw [← hinv.tickets p hp q]
    simp only [StartUp.tickets, hlayers p hp, receive_apply, and_true]
    -- the ticket moves from the handshake to the table
    by_cases hpb : p = b
    · subst hpb
      by_cases hqa : q = a
      · subst hqa
        simp [hhello]
        omega
      · simp [hqa, Ne.symm hqa]
    · simp [hpb]
  · intro p hp q x hx
    apply hinv.hello p hp q x
    simp only [receive_apply] at hx
    split at hx
    · exact List.mem_of_mem_eraseIdx hx
    · exact hx
  · intro p hp hbusy
    obtain ⟨hdone, hnone⟩ := hinv.busy p hp hbusy
    refine ⟨hdone, ?_⟩
    intro q hq
    simp only [receive_apply, hnone q hq]
    split <;> rfl
  · intro p hp c hc
    simp only [hlayers p hp] at hc
    rw [if_neg fun hk => absurd hk.2 (by decide)] at hc
    exact hinv.below p hp c hc

/-! ## The core layer -/

/-- A node with a connection still to be made is idle. -/
theorem StartInv.idle (hinv : StartInv P s) (hp : p ∈ P.cores) {x : Stmt} (hx : x ∈ s.todo)
    (hlinks : x.links p = true) : (s.core.node p).idle = true := by
  by_contra hbusy
  have hnot := (hinv.busy p hp (by simpa using hbusy)).1 x hx
  exact absurd hlinks (by simp [hnot])

/-- A step of a node that is not at the ends of `p` and `q`'s connection, or has nothing for them, leaves
    that connection empty. -/
theorem chan_put {c : Core.State} {x : Int} {r : CoreNode × Outs} (h : c.chan p q = [])
    (hout : x = p → select q r.2 = []) : (c.put x r).chan p q = [] := by
  rw [Core.put_chan, h]
  split
  · rename_i hpx
    rw [hout hpx.symm, List.append_nil]
  · rfl

theorem chan_take {c : Core.State} {x y : Int} {i : Nat} (h : c.chan p q = []) :
    (c.take x y i).chan p q = [] := by
  rw [Core.take_chan, h]
  split <;> rfl

/-- The ends of a connection that is still to be made send each other nothing. -/
theorem StartInv.core_quiet (hinv : StartInv P s) {l : Core.Label} {core : Core.State}
    (hst : Core.step P.cores s.layers s.core l = some core) (hp : p ∈ P.cores) (hq : q ∈ P.cores)
    (hmem : .handshake p q CORE_LAYER ∈ s.todo) : core.chan p q = [] ∧ core.chan q p = [] := by
  obtain ⟨hpq, hqp⟩ := hinv.quiet p hp q hq hmem
  have hidle : (s.core.node p).idle = true := hinv.idle hp hmem (by simp [Stmt.links])
  have hidle' : (s.core.node q).idle = true := hinv.idle hq hmem (by simp [Stmt.links])
  cases l with
  | submit x d =>
    obtain ⟨-, -, rfl⟩ := Core.step_submit hst
    exact ⟨chan_put hpq fun _ => rfl, chan_put hqp fun _ => rfl⟩
  | requester x =>
    -- the client threads of both ends are idle
    obtain ⟨-, hbusy, rfl⟩ := Core.step_requester hst
    refine ⟨chan_put hpq ?_, chan_put hqp ?_⟩
    · rintro rfl
      exact absurd hidle (by simp [hbusy])
    · rintro rfl
      exact absurd hidle' (by simp [hbusy])
  | handle x y i =>
    -- a handler answers the sender of a message, and sends to the layer below
    obtain ⟨hx, -, m, hm, rfl⟩ := Core.step_handle hst
    have hsome : s.core.chan y x ≠ [] := by
      intro hnil
      rw [hnil] at hm
      exact absurd hm (by simp)
    have hout : ∀ z ∈ P.cores, z ≠ y →
        select z ((s.core.node x).handleMsg (s.layers x) x m.value y m.tag).2 = [] := by
      intro z hz hzy
      rw [List.eq_nil_iff_forall_not_mem]
      intro o ho
      rcases Core.handleMsg_dest _ (mem_select.mp ho) with hzy' | hbelow
      · exact hzy hzy'
      · exact hinv.below x hx z hbelow hz
    refine ⟨chan_put (chan_take hpq) ?_, chan_put (chan_take hqp) ?_⟩
    · rintro rfl
      apply hout q hq
      intro hqy
      exact hsome (hqy ▸ hqp)
    · rintro rfl
      apply hout p hp
      intro hpy
      exact hsome (hpy ▸ hpq)
  | drain x b =>
    obtain ⟨-, -, rfl⟩ := Core.step_drain s.layers hst
    exact ⟨chan_take hpq, chan_take hqp⟩

/-- A node gets to work by a file event with a write, and by nothing else. -/
theorem StartInv.core_busy (hinv : StartInv P s) {l : Core.Label} {core : Core.State}
    (hg : afterConnect P s (.core l)) (hst : Core.step P.cores s.layers s.core l = some core)
    (hp : p ∈ P.cores) (hbusy : (core.node p).idle = false) : connected P s p := by
  by_cases hold : (s.core.node p).idle = false
  · exact hinv.busy p hp hold
  · have hidle : (s.core.node p).idle = true := by simpa using hold
    cases l with
    | submit x d =>
      obtain ⟨-, -, rfl⟩ := Core.step_submit hst
      by_cases hpx : p = x
      · subst hpx
        rcases hg with hread | hconn
        · -- a read does not leave the node at work
          rw [Core.put_node, if_pos rfl, CoreNode.executeTransaction, if_pos hread] at hbusy
          exact absurd hidle (by simpa [CoreNode.idle] using hbusy)
        · exact hconn
      · rw [Core.put_node, if_neg hpx] at hbusy
        exact absurd hidle (by simp [hbusy])
    | requester x =>
      obtain ⟨-, hstep, rfl⟩ := Core.step_requester hst
      by_cases hpx : p = x
      · subst hpx
        exact absurd hidle (by simp [hstep])
      · rw [Core.put_node, if_neg hpx] at hbusy
        exact absurd hidle (by simp [hbusy])
    | handle x y i =>
      -- no message moves the client thread on
      obtain ⟨-, -, m, hm, rfl⟩ := Core.step_handle hst
      by_cases hpx : p = x
      · subst hpx
        have hpc := (CoreNode.handleMsg_pending? (L := s.layers p) (n := s.core.node p) p m y).2.2.2
        rw [Core.put_node, if_pos rfl, CoreNode.idle, hpc] at hbusy
        exact absurd hidle (by simpa [CoreNode.idle] using hbusy)
      · rw [Core.put_node, if_neg hpx] at hbusy
        exact absurd hidle (by simpa using hbusy)
    | drain x b =>
      obtain ⟨-, -, rfl⟩ := Core.step_drain s.layers hst
      exact absurd hidle (by simpa using hbusy)

theorem StartInv.core (hinv : StartInv P s) {l : Core.Label} {core : Core.State}
    (hg : afterConnect P s (.core l)) (hst : Core.step P.cores s.layers s.core l = some core) :
    StartInv P { s with core := core } := by
  refine ⟨hinv.script, hinv.tickets, hinv.hello, ?_, ?_, hinv.below⟩
  · intro p hp q hq hmem
    exact hinv.core_quiet hst hp hq hmem
  · intro p hp hbusy
    exact hinv.core_busy hg hst hp hbusy

/-! ## Runs -/

theorem startInv (hs : Reachable (system P) (afterConnect P) s) : StartInv P s := by
  refine Reachable.invariant (I := StartInv P) ?_ ?_ hs
  · rintro s rfl
    exact startInv_init P
  · intro s l t _ hinv hg hst
    cases l with
    | stmt =>
      have hst : step P s .stmt = some t := hst
      simp only [step] at hst
      split at hst
      · exact absurd hst (by simp)
      · obtain rfl := Option.some.inj hst
        exact hinv.register ‹_›
      · obtain rfl := Option.some.inj hst
        exact hinv.handshake ‹_›
      · obtain rfl := Option.some.inj hst
        exact hinv.start ‹_›
    | accept a b =>
      have hst : step P s (.accept a b) = some t := hst
      simp only [step] at hst
      split at hst
      · exact absurd hst (by simp)
      · obtain rfl := Option.some.inj hst
        exact hinv.accept ‹_›
    | core l =>
      obtain ⟨core, hcore, rfl⟩ := Option.map_eq_some_iff.mp hst
      exact hinv.core hg hcore

/-- A node that is connected has every other core node in its core layer, once, and nothing else. -/
theorem StartInv.count (hinv : StartInv P s) (hp : p ∈ P.cores) (hconn : connected P s p) (q : Int) :
    (s.layers p CORE_LAYER).count q = if q ∈ P.cores ∧ q ≠ p then 1 else 0 := by
  obtain ⟨hdone, hnone⟩ := hconn
  have hticket := hinv.tickets p hp q
  -- of the places where the ticket can be, only the table is left
  have hregister : s.todo.count (.register p q CORE_LAYER) = 0 := by
    apply List.count_eq_zero.mpr
    intro hmem
    have hnot := hdone _ hmem
    exact absurd hnot (by simp [Stmt.links])
  have hhandshake : s.todo.count (.handshake q p CORE_LAYER) = 0 := by
    apply List.count_eq_zero.mpr
    intro hmem
    have hnot := hdone _ hmem
    exact absurd hnot (by simp [Stmt.links])
  have hhello : (s.hello q p).length = 0 := by
    by_cases hq : q ∈ P.cores
    · rw [hnone q hq]
      rfl
    · rw [if_neg fun h => hq h.1, StartUp.tickets] at hticket
      omega
  unfold StartUp.tickets at hticket
  rw [hregister, hhandshake, hhello] at hticket
  omega

/-- The table of a node that is connected. -/
theorem StartInv.table (hinv : StartInv P s) (hp : p ∈ P.cores) (hconn : connected P s p) :
    (s.layers p CORE_LAYER).Perm (P.cores.filter (· ≠ p)) := by
  rw [List.perm_iff_count]
  intro q
  rw [hinv.count hp hconn, (P.nodup.filter _).count]
  simp only [List.mem_filter, decide_eq_true_eq]

/-- Once all core nodes are connected, their tables are those of a core layer at work. -/
def StartInv.mesh (hinv : StartInv P s) (hconn : ∀ p ∈ P.cores, connected P s p) : Mesh where
  cores := P.cores
  layers := s.layers
  nodup p hp := (hinv.table hp (hconn p hp)).nodup_iff.mpr (P.nodup.filter _)
  mem_core p hp q := by
    rw [(hinv.table hp (hconn p hp)).mem_iff, List.mem_filter]
    simp
  below p hp b hb := hinv.below p hp b hb

/-! ## Sending to all core nodes -/

/-- If file events with writes come to connected nodes only, then whenever the client thread of a core node
    takes a step, its table holds every other core node, once, and nothing else; and the loop that sends
    its write starts with all of them to go. -/
theorem no_write_escapes (P : Plan) (s t : State) (p : Int)
    (hs : Reachable (system P) (afterConnect P) s) (hst : step P s (.core (.requester p)) = some t) :
    (s.layers p CORE_LAYER).Perm (P.cores.filter (· ≠ p)) ∧
      ((s.core.node p).enters (s.layers p) p = true →
        (t.core.node p).pending? = some (s.layers p CORE_LAYER)) := by
  obtain ⟨core, hcore, rfl⟩ := Option.map_eq_some_iff.mp hst
  obtain ⟨hp, hbusy, rfl⟩ := Core.step_requester hcore
  have hinv := startInv hs
  refine ⟨hinv.table hp (hinv.busy p hp hbusy), ?_⟩
  intro henter
  have hmove : CoreNode.Move (s.layers p) p (s.core.node p)
    ((s.core.node p).requester (s.layers p) p) := CoreNode.requester_move
  simp only [Core.put_node, if_true]
  generalize (s.core.node p).requester (s.layers p) p = r at hmove
  cases hmove with
  | enter _ _ _ hpend _ _ _ => exact hpend
  | send x todo hnot _ _ _ _ _ => exact absurd henter (by simp [hnot])
  | reset _ hnot _ _ _ _ _ => exact absurd henter (by simp [hnot])
  | stay hnot _ _ _ _ => exact absurd henter (by simp [hnot])

/-- The controller's script, with the handshakes of the core layer processed. -/
def connecting : List Label :=
  List.replicate controllerRun.length .stmt ++
    [.accept 8888 8889, .accept 8888 8890, .accept 8889 8890]

/-- A file event for `A2`: its `REQUEST` is answered by `A1` and `A3`, and it may enter. -/
def entering : List Label :=
  [.core (.submit 8889 ⟨.sum, 5⟩)] ++ List.replicate 5 (.core (.requester 8889)) ++
    [.core (.handle 8888 8889 0), .core (.handle 8890 8889 0), .core (.handle 8889 8888 0),
      .core (.handle 8889 8890 0)]

theorem no_write_escapes_entering :
    ∃ s t, exec (system Plan.controller) (afterConnect Plan.controller) (init Plan.controller)
        (connecting ++ entering) = some s ∧
      step Plan.controller s (.core (.requester 8889)) = some t ∧
      (t.core.node 8889).pending? = some (s.layers 8889 CORE_LAYER) ∧
      (s.layers 8889 CORE_LAYER).Perm [8888, 8890] := by
  obtain ⟨s, hexec, hs, hP⟩ := Reachable.of_exec (system Plan.controller)
    (afterConnect Plan.controller) (init Plan.controller) (connecting ++ entering)
    (fun s => (s.core.node 8889).enters (s.layers 8889) 8889 &&
      (step Plan.controller s (.core (.requester 8889))).isSome) rfl (by decide +kernel)
  rw [Bool.and_eq_true] at hP
  obtain ⟨t, ht⟩ := Option.isSome_iff_exists.mp hP.2
  obtain ⟨htable, hpend⟩ := no_write_escapes Plan.controller s t 8889 hs ht
  exact ⟨s, t, hexec, ht, hpend hP.1, htable⟩

/-- A file event for `A1` right after `watch()`: `requestCS` returns at once, and the loop that sends the
    write starts with nobody in it. -/
theorem write_escapes : ∃ s t, Reachable (system Plan.controller) anyStep s ∧
    step Plan.controller s (.core (.requester 8888)) = some t ∧
    (s.core.node 8888).enters (s.layers 8888) 8888 = true ∧
    s.layers 8888 CORE_LAYER = [] ∧ (t.core.node 8888).pending? = some [] := by
  obtain ⟨s, -, hs, hP⟩ := Reachable.of_exec (system Plan.controller) anyStep (init Plan.controller)
    (.core (.submit 8888 ⟨.sum, 5⟩) :: List.replicate 3 (.core (.requester 8888)))
    (fun s => (s.core.node 8888).enters (s.layers 8888) 8888 && s.layers 8888 CORE_LAYER == [] &&
      (step Plan.controller s (.core (.requester 8888))).any fun t =>
        (t.core.node 8888).pending? == some []) rfl (by decide +kernel)
  simp only [Bool.and_eq_true, beq_iff_eq, Option.any_eq_true] at hP
  obtain ⟨⟨henter, hnobody⟩, t, ht, hpend⟩ := hP
  exact ⟨s, t, hs, ht, henter, hnobody, hpend⟩

end StartUp
end Epidemica
