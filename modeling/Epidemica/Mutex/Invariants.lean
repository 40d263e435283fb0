import Epidemica.Mutex.System

/-!
# `Mutex.Invariants` — what holds in every interleaving

No condition on the order of steps is used here: the clocks bound what is known of them, a queue mirrors
what its sources have said, and a request that was sent is on its way, answered or acknowledged.

- `NodeInv`: a node alone (its own entry, the values its thread has read).
- `LinkInv`: an ordered pair `a`, `b` — what `b` knows of `a`, and what is on its way between them.
-/

namespace Epidemica

open Network Transition

namespace Pc

/-! ## What a position of the thread stands for -/

/-- The request that stands in `m_RequestQ` under the own id. -/
def own? : Pc → Option Int
  | .sendRequest t _ | .wait t | .inCS t => some t
  | _ => none

/-- The clock values the thread holds. -/
def values : Pc → List Int
  | .idle | .getValue => []
  | .store t | .sendRequest t _ | .wait t | .inCS t | .getRelease t => [t]
  | .sendRelease t v _ => [t, v]

/-- The peers a broadcast in progress has not reached. -/
def todo : Pc → List Int
  | .sendRequest _ todo | .sendRelease _ _ todo => todo
  | _ => []

/-- What `b` has been told last, counting what is in flight: a request, or nothing since a release. -/
def told (b : Int) : Pc → Option Int
  | .idle | .getValue | .store _ => none
  | .sendRequest t todo => if b ∈ todo then none else some t
  | .wait t | .inCS t | .getRelease t => some t
  | .sendRelease t _ todo => if b ∈ todo then some t else none

end Pc

namespace Mutex

/-- The queue entry that a stretch of messages turns `q` into; `none` if a request comes on top of a
    request, or a release without one. Acknowledgements do not matter. -/
def view : Option Int → List Msg → Option (Option Int)
  | q, [] => some q
  | q, m :: rest =>
    match m.tag, q with
    | .request, none => view (some m.value) rest
    | .request, some _ => none
    | .release, some _ => view none rest
    | .release, none => none
    | _, q => view q rest

theorem view_append (l₁ l₂ : List Msg) (q : Option Int) :
    view q (l₁ ++ l₂) = (view q l₁).bind fun r => view r l₂ := by
  induction l₁ generalizing q with
  | nil => rfl
  | cons m rest ih =>
    simp only [List.cons_append, view]
    split <;> simp_all

/-! ## Invariants of a node alone -/

/-- What holds of a node alone: while it asks, its own entry in the queue is the ticks it read, no value it is
    about to send is past its clock, and it sends to nobody twice. -/
structure NodeInv (a : Int) (n : MutexNode) : Prop where
  own : ∀ t, n.pc.own? = some t → n.lamport.requestQ a = some t
  bound : ∀ v ∈ n.pc.values, v ≤ n.lamport.clock.getValue a
  todo : n.pc.todo.Nodup

theorem nodeInv_init (a : Int) : NodeInv a (MutexNode.init a) := by
  constructor <;> simp [MutexNode.init, Pc.own?, Pc.values, Pc.todo]

theorem NodeInv.stmt {peers : List Int} (hpeers : peers.Nodup) {a : Int} {n : MutexNode}
    (h : NodeInv a n) : NodeInv a (n.requester peers a).1 := by
  obtain ⟨m, pc⟩ := n
  obtain ⟨hown, hbound, htodo⟩ := h
  cases pc with
  | sendRequest t todo =>
    cases todo with
    | nil => constructor <;> simp_all [MutexNode.requester, Pc.own?, Pc.values, Pc.todo]
    | cons q todo => constructor <;> simp_all [MutexNode.requester, Pc.own?, Pc.values, Pc.todo]
  | sendRelease t v todo =>
    cases todo with
    | nil => constructor <;> simp_all [MutexNode.requester, Pc.own?, Pc.values, Pc.todo]
    | cons q todo => constructor <;> simp_all [MutexNode.requester, Pc.own?, Pc.values, Pc.todo]
  | wait t =>
    simp only [MutexNode.requester]
    split
    · constructor <;> simp_all [Pc.own?, Pc.values, Pc.todo]
    · exact ⟨hown, hbound, htodo⟩
  | _ => constructor <;> simp_all [MutexNode.requester, Pc.own?, Pc.values, Pc.todo]

theorem NodeInv.handle {a src v : Int} {tag : Tag} {n : MutexNode} (hsrc : src ≠ a)
    (h : NodeInv a n) : NodeInv a (n.handle a v src tag).1 := by
  refine ⟨?_, ?_, h.todo⟩
  · intro t ht
    -- the handler writes the queue at the sender only
    unfold MutexNode.handle
    rw [LamportMutex.handleMsg_requestQ]
    simpa [Ne.symm hsrc] using h.own t ht
  · intro w hw
    have hle := h.bound w hw
    rw [MutexNode.handle_clock_self _ _ _ hsrc]
    omega

theorem NodeInv.step {net : Mesh} {Ok : Handling} {a : Int} (ha : a ∈ net.cores) {n n' : MutexNode}
    (h : NodeInv a n) (hstep : NodeStep net Ok a n n') : NodeInv a n' := by
  cases hstep with
  | stmt => exact h.stmt (net.nodup a ha)
  | handle q m hq _ => exact h.handle hq

theorem nodeInv {net : Mesh} {Ok : Handling} {s : State} (hs : Reachable (system net) (handling Ok) s)
    {a : Int} (ha : a ∈ net.cores) : NodeInv a (s.node a) := by
  refine Reachable.invariant (I := fun s => NodeInv a (s.node a)) ?_ ?_ hs
  · rintro s rfl
    exact nodeInv_init a
  · intro s l t _ ih hg hst
    rcases node_step hg hst a with heq | hstep
    · rw [heq]; exact ih
    · exact ih.step ha hstep

/-! ## What a statement does, as seen by a peer `b` -/

section
variable {peers : List Int} {a b : Int} {n : MutexNode}

theorem requester_clock_self_le (peers : List Int) (a : Int) (n : MutexNode) :
    n.lamport.clock.getValue a ≤ (n.requester peers a).1.lamport.clock.getValue a := by
  obtain ⟨m, pc⟩ := n
  rcases pc with _ | _ | _ | ⟨_, _ | _⟩ | _ | _ | _ | ⟨_, _, _ | _⟩ <;>
    simp only [MutexNode.requester] <;> (try split) <;> simp

theorem requester_clock_of_ne (peers : List Int) (n : MutexNode) (hb : b ≠ a) :
    (n.requester peers a).1.lamport.clock.getValue b = n.lamport.clock.getValue b := by
  obtain ⟨m, pc⟩ := n
  rcases pc with _ | _ | _ | ⟨_, _ | _⟩ | _ | _ | _ | ⟨_, _, _ | _⟩ <;>
    simp only [MutexNode.requester] <;> (try split) <;> simp [hb]

theorem requester_requestQ_of_ne (peers : List Int) (n : MutexNode) (hb : b ≠ a) :
    (n.requester peers a).1.lamport.requestQ b = n.lamport.requestQ b := by
  obtain ⟨m, pc⟩ := n
  rcases pc with _ | _ | _ | ⟨_, _ | _⟩ | _ | _ | _ | ⟨_, _, _ | _⟩ <;>
    simp only [MutexNode.requester] <;> (try split) <;> simp [hb]

/-- What a statement sends to `b` turns what `b` was told before into what it is told after. -/
theorem view_requester (hb : b ∈ peers) (htodo : n.pc.todo.Nodup) :
    view (n.pc.told b) (select b (n.requester peers a).2) =
      some ((n.requester peers a).1.pc.told b) := by
  obtain ⟨m, pc⟩ := n
  rcases pc with _ | _ | _ | ⟨t, _ | ⟨q, todo⟩⟩ | _ | _ | _ | ⟨t, v, _ | ⟨q, todo⟩⟩ <;>
    simp only [MutexNode.requester]
  -- a broadcast names each peer once: after the message to `b` there is none for it
  case sendRequest.cons =>
    by_cases hq : q = b
    · subst hq
      simp [view, Pc.told, (List.nodup_cons.mp htodo).1]
    · simp [view, Pc.told, hq, Ne.symm hq]
  case sendRelease.cons =>
    by_cases hq : q = b
    · subst hq
      simp [view, Pc.told, (List.nodup_cons.mp htodo).1]
    · simp [view, Pc.told, hq, Ne.symm hq]
  case wait => split <;> simp [view, Pc.told]
  all_goals simp [view, Pc.told, hb]

/-- Whatever a statement sends carries a value the thread has read from the own clock. -/
theorem sent_value_mem {m : Msg} (hm : m ∈ select b (n.requester peers a).2) :
    m.value ∈ n.pc.values := by
  obtain ⟨l, pc⟩ := n
  rcases pc with _ | _ | _ | ⟨t, _ | ⟨q, todo⟩⟩ | _ | _ | _ | ⟨t, v, _ | ⟨q, todo⟩⟩ <;>
    simp only [MutexNode.requester] at hm
  case sendRequest.cons => by_cases hq : q = b <;> simp_all [Pc.values]
  case sendRelease.cons => by_cases hq : q = b <;> simp_all [Pc.values]
  case wait => split at hm <;> simp at hm
  all_goals simp at hm

/-- `b` is told of a new request only by a message that carries it. -/
theorem told_requester {t : Int} (h : (n.requester peers a).1.pc.told b = some t)
    (hb : b ∈ peers) : n.pc.told b = some t ∨ ⟨.request, t⟩ ∈ select b (n.requester peers a).2 := by
  obtain ⟨l, pc⟩ := n
  rcases pc with _ | _ | _ | ⟨u, _ | ⟨q, todo⟩⟩ | _ | _ | _ | ⟨u, v, _ | ⟨q, todo⟩⟩ <;>
    simp only [MutexNode.requester] at h ⊢
  case sendRequest.cons => by_cases hq : q = b <;> simp_all [Pc.told, Ne.symm]
  case sendRelease.cons => by_cases hq : q = b <;> simp_all [Pc.told, Ne.symm]
  case wait => split at h <;> simp_all [Pc.told]
  all_goals simp_all [Pc.told]

/-- The handler of `a` sends `b` at most the acknowledgement of its request. -/
theorem select_handle {v : Int} {tag : Tag} :
    select b (n.handle a v b tag).2 =
      if tag = .request then [⟨.ack, (n.lamport.clock.recieveAction a b v).getValue a⟩] else [] := by
  simp only [MutexNode.handle, LamportMutex.handleMsg_outs]
  split <;> simp

/-- The handler takes the oldest message out of the view and into the queue. -/
theorem view_handle {m : Msg} {rest : List Msg} {r : Option Int}
    (h : view (n.lamport.requestQ b) (m :: rest) = some r) :
    view ((n.handle a m.value b m.tag).1.lamport.requestQ b) rest = some r := by
  obtain ⟨tag, v⟩ := m
  cases hq : n.lamport.requestQ b <;> cases tag <;>
    simp_all [view, MutexNode.handle, LamportMutex.handleMsg_requestQ]

end

/-! ## Invariants of a link -/

/-- What holds between `a` and what `b` knows of it. -/
structure LinkInv (a b : Int) (k : Link) : Prop where
  /-- The entry of `b` for `a` is behind the own clock of `b`. -/
  entry_lt : k.right.lamport.clock.getValue a < k.right.lamport.clock.getValue b
  /-- The entry of `b` for `a` is not ahead of `a`. -/
  entry_le : k.right.lamport.clock.getValue a ≤ k.left.lamport.clock.getValue a
  /-- Nothing in flight from `a` is ahead of `a`. -/
  flight_le : ∀ m ∈ k.out, m.value ≤ k.left.lamport.clock.getValue a
  /-- The entry of `b` in the queue, with what is in flight, is what `a` has told `b`. -/
  mirror : view (k.right.lamport.requestQ a) k.out = some (k.left.pc.told b)
  /-- A request told to `b` is on its way, or answered with a later clock, or the answer is in. -/
  acked : ∀ t, k.left.pc.told b = some t →
    ⟨.request, t⟩ ∈ k.out ∨ (∃ m ∈ k.back, t < m.value) ∨ t < k.left.lamport.clock.getValue b

theorem linkInv_init {a b : Int} (hab : a ≠ b) : LinkInv a b (init.link a b) := by
  constructor <;>
    simp [State.link, init, MutexNode.init, LamportMutex.init, view, Pc.told, hab]

section
variable {net : Mesh} {Ok : Handling} {a b : Int} {k k' : Link}

/-- A step of `a` keeps the invariant of `a`, `b`. -/
theorem LinkInv.left (hab : a ≠ b) (ha : a ∈ net.cores) (hb : b ∈ net.cores)
    (hn : NodeInv a k.left) (h : LinkInv a b k) (hstep : LeftStep net Ok a b k k') :
    LinkInv a b k' := by
  have hbp : b ∈ net.peers a := (net.mem_peers ha).mpr ⟨hb, hab.symm⟩
  obtain ⟨hlt, hentry, hflight, hmirror, hacked⟩ := h
  cases hstep with
  | stmt =>
    -- the own clock never goes back, and what is sent now has been read from it
    have hle := requester_clock_self_le (net.peers a) a k.left
    refine ⟨hlt, Int.le_trans hentry hle, ?_, ?_, ?_⟩
    · intro m hm
      rcases List.mem_append.mp hm with hm | hm
      · exact Int.le_trans (hflight m hm) hle
      · exact Int.le_trans (hn.bound _ (sent_value_mem hm)) hle
    · simp only [view_append, hmirror, Option.bind_some]
      exact view_requester hbp hn.todo
    · intro t ht
      simp only [requester_clock_of_ne _ _ hab.symm]
      rcases told_requester ht hbp with hold | hnew
      · exact (hacked t hold).imp_left (List.mem_append_left _)
      · exact Or.inl (List.mem_append_right _ hnew)
  | handle m rest hback _ =>
    -- a message of `b` moves both entries, and a request is answered with the new clock
    have hself := k.left.handle_clock_self m.value m.tag hab.symm
    have hfrom := k.left.handle_clock_sender m.value m.tag hab.symm
    have hle : k.left.lamport.clock.getValue a ≤
        (k.left.handle a m.value b m.tag).1.lamport.clock.getValue a := by omega
    refine ⟨hlt, Int.le_trans hentry hle, ?_, ?_, ?_⟩
    · intro x hx
      rcases List.mem_append.mp hx with hx | hx
      · exact Int.le_trans (hflight x hx) hle
      · rw [MutexNode.ack_of_mem_select hx]
    · rw [view_append, hmirror, Option.bind_some, select_handle]
      split <;> simp [view]
    · intro t ht
      simp only [hfrom]
      -- the later clock that was on its way to `a` may be in this message
      rcases hacked t ht with hreq | ⟨x, hx, htx⟩ | hdone
      · exact Or.inl (List.mem_append_left _ hreq)
      · rw [hback] at hx
        rcases List.mem_cons.mp hx with rfl | hx
        · exact Or.inr (Or.inr (by omega))
        · exact Or.inr (Or.inl ⟨x, hx, htx⟩)
      · exact Or.inr (Or.inr (by omega))
  | other c m hca hcb _ =>
    -- a message of another node moves the own clock, and the answer does not go to `b`
    have hself := k.left.handle_clock_self m.value m.tag hca
    have hfrom := k.left.handle_clock_of_ne m.value m.tag hab.symm hcb.symm
    have hle : k.left.lamport.clock.getValue a ≤
        (k.left.handle a m.value c m.tag).1.lamport.clock.getValue a := by omega
    refine ⟨hlt, Int.le_trans hentry hle, fun x hx => Int.le_trans (hflight x hx) hle, hmirror, ?_⟩
    · simpa only [hfrom, MutexNode.handle_pc] using hacked

/-- A step of `b` keeps the invariant of `a`, `b`. -/
theorem LinkInv.right (hab : a ≠ b) (h : LinkInv a b k) (hstep : LeftStep net Ok b a k.swap k') :
    LinkInv a b k'.swap := by
  obtain ⟨hlt, hentry, hflight, hmirror, hacked⟩ := h
  cases hstep with
  | stmt =>
    -- a statement of `b` changes nothing that `b` holds of `a`
    have hle := requester_clock_self_le (net.peers b) b k.right
    have hsame := requester_clock_of_ne (net.peers b) k.right hab
    have hqueue := requester_requestQ_of_ne (net.peers b) k.right hab
    refine ⟨?_, ?_, hflight, ?_, ?_⟩
    · simp only [Link.swap, hsame]
      omega
    · simpa only [Link.swap, hsame] using hentry
    · simpa only [Link.swap, hqueue] using hmirror
    · intro t ht
      rcases hacked t ht with hreq | ⟨x, hx, htx⟩ | hdone
      · exact Or.inl hreq
      · exact Or.inr (Or.inl ⟨x, List.mem_append_left _ hx, htx⟩)
      · exact Or.inr (Or.inr hdone)
  | handle m rest hout _ =>
    have hout : k.out = m :: rest := hout
    have hself := k.right.handle_clock_self m.value m.tag hab
    have hfrom := k.right.handle_clock_sender m.value m.tag hab
    -- the oldest message of `a` is not ahead of `a`, and `b` gets ahead of it
    have hm : m.value ≤ k.left.lamport.clock.getValue a := hflight m (by simp [hout])
    refine ⟨?_, ?_, ?_, ?_, ?_⟩
    · simp only [Link.swap, hself, hfrom]
      omega
    · simp only [Link.swap, hfrom]
      omega
    · intro x hx
      exact hflight x (by simp only [hout]; exact List.mem_cons_of_mem _ hx)
    · rw [hout] at hmirror
      exact view_handle hmirror
    · intro t ht
      rcases hacked t ht with hreq | ⟨x, hx, htx⟩ | hdone
      · -- the request itself is answered with a later clock
        rw [hout] at hreq
        rcases List.mem_cons.mp hreq with heq | hreq
        · refine Or.inr (Or.inl ⟨⟨.ack, max (k.right.lamport.clock.getValue b) t + 1⟩, ?_, ?_⟩)
          · apply List.mem_append_right _
            simp [Link.swap, select_handle, ← heq, hab]
          · simp only
            omega
        · exact Or.inl hreq
      · exact Or.inr (Or.inl ⟨x, List.mem_append_left _ hx, htx⟩)
      · exact Or.inr (Or.inr hdone)
  | other c m hcb hca _ =>
    have hself := k.right.handle_clock_self m.value m.tag hcb
    have hfrom := k.right.handle_clock_of_ne m.value m.tag hab hca.symm
    refine ⟨?_, ?_, hflight, ?_, hacked⟩
    · simp only [Link.swap, hself, hfrom]
      omega
    · simpa only [Link.swap, hfrom] using hentry
    · simpa [Link.swap, MutexNode.handle, LamportMutex.handleMsg_requestQ, hca.symm] using hmirror

end

/-- The link invariant holds between any two nodes of a reachable state. -/
theorem linkInv {net : Mesh} {Ok : Handling} {s : State}
    (hs : Reachable (system net) (handling Ok) s) {a b : Int} (ha : a ∈ net.cores)
    (hb : b ∈ net.cores) (hab : a ≠ b) : LinkInv a b (s.link a b) :=
  link_invariant (fun _ _ hab => linkInv_init hab)
    (fun _ _ _ _ hr ha hb hab ih hst => ih.left hab ha hb (nodeInv hr ha) hst)
    (fun _ _ _ _ _ _ _ hab ih hst => ih.right hab hst) hs ha hb hab

end Mutex
end Epidemica
