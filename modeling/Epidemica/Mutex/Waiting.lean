import Epidemica.Mutex.Exclusion

/-!
# `Mutex.Waiting` — what cannot come before a request any more

A node whose clock is past the request `t` of `p` makes only requests that come after it. Once the request
it is making, if any, comes after `t` too, this stays so (`Late`); and once no earlier request of it is on
its way to `p` or in the queue of `p`, that stays so as well (`Passed`).
-/

namespace Epidemica

open Network Transition

/-- The request the thread is making, holds or releases. -/
def Pc.ticks? : Pc → Option Int
  | .idle | .getValue => none
  | .store t | .sendRequest t _ | .wait t | .inCS t | .getRelease t | .sendRelease t _ _ => some t

namespace Mutex

/-- All that node `q` asks for from now on comes after the request `t` of `p`. -/
structure Late (t p q : Int) (n : MutexNode) : Prop where
  ticks : ∀ u, n.pc.ticks? = some u → isGreater t p u q = false
  clock : t < n.lamport.clock.getValue q

section
variable {t p q : Int} {n : MutexNode}

/-- What `p` was told last is the request that is being made, held or released. -/
theorem ticks?_of_told {u : Int} (h : n.pc.told p = some u) : n.pc.ticks? = some u := by
  obtain ⟨m, pc⟩ := n
  cases pc with
  | idle | getValue | store _ => exact absurd h (by simp [Pc.told])
  | sendRequest v todo | sendRelease v _ todo =>
    simp only [Pc.told] at h
    split at h <;> simp_all [Pc.ticks?]
  | wait v | inCS v | getRelease v => simpa [Pc.told, Pc.ticks?] using h

/-- A `REQUEST` carries the request that is being made. -/
theorem ticks?_of_request {peers : List Int} {b : Int} {m : Msg}
    (hm : m ∈ select b (n.requester peers q).2) (htag : m.tag = .request) :
    n.pc.ticks? = some m.value := by
  obtain ⟨l, pc⟩ := n
  rcases pc with _ | _ | _ | ⟨v, _ | ⟨x, todo⟩⟩ | _ | _ | _ | ⟨v, w, _ | ⟨x, todo⟩⟩ <;>
    simp only [MutexNode.requester] at hm
  case sendRequest.cons => by_cases hx : x = b <;> simp_all [Pc.ticks?]
  case sendRelease.cons => by_cases hx : x = b <;> simp_all
  case wait => split at hm <;> simp at hm
  all_goals simp at hm

theorem Late.requester (peers : List Int) (h : Late t p q n) : Late t p q (n.requester peers q).1 := by
  obtain ⟨hticks, hclock⟩ := h
  refine ⟨?_, Int.lt_of_lt_of_le hclock (requester_clock_self_le peers q n)⟩
  intro u hu
  obtain ⟨m, pc⟩ := n
  rcases pc with _ | _ | v | ⟨v, _ | ⟨x, todo⟩⟩ | v | v | v | ⟨v, w, _ | ⟨x, todo⟩⟩ <;>
    simp only [MutexNode.requester] at hu
  case getValue =>
    -- a new request takes the clock as its ticks
    have hu : m.clock.getValue q = u := by simpa [Pc.ticks?] using hu
    have hclock : t < m.clock.getValue q := hclock
    rw [isGreater_eq_false]
    omega
  case wait => split at hu <;> exact hticks u (by simpa [Pc.ticks?] using hu)
  case idle => simp [Pc.ticks?] at hu
  case sendRelease.nil => simp [Pc.ticks?] at hu
  all_goals exact hticks u (by simpa [Pc.ticks?] using hu)

theorem Late.handle {src v : Int} {tag : Tag} (hsrc : src ≠ q) (h : Late t p q n) :
    Late t p q (n.handle q v src tag).1 := by
  refine ⟨h.ticks, ?_⟩
  rw [MutexNode.handle_clock_self _ _ _ hsrc]
  have hclock := h.clock
  omega

theorem Late.step {net : Mesh} {Ok : Handling} {n' : MutexNode} (h : Late t p q n)
    (hstep : NodeStep net Ok q n n') : Late t p q n' := by
  cases hstep with
  | stmt => exact h.requester _
  | handle x m hx _ => exact h.handle hx

/-- What a node knows of the clock of another only grows. -/
theorem entry_step {net : Mesh} {Ok : Handling} {n' : MutexNode} (hqp : q ≠ p)
    (hstep : NodeStep net Ok p n n') :
    n.lamport.clock.getValue q ≤ n'.lamport.clock.getValue q := by
  cases hstep with
  | stmt => rw [requester_clock_of_ne _ n hqp]
  | handle x m hx _ =>
    by_cases hxq : q = x
    · subst hxq
      rw [MutexNode.handle_clock_sender _ _ _ hx]
      omega
    · rw [MutexNode.handle_clock_of_ne _ _ _ hqp hxq]

/-- A request that is on record and was not told last is released by a message under way. -/
theorem release_of_view {u : Int} {l : List Msg} {r : Option Int} (h : view (some u) l = some r)
    (hne : r ≠ some u) : ∃ m ∈ l, m.tag = .release := by
  induction l with
  | nil => exact absurd (Option.some.inj h).symm hne
  | cons m l ih =>
    simp only [view] at h
    split at h
    · exact absurd ‹some u = none› (by simp)
    · exact absurd h (by simp)
    · exact ⟨m, List.mem_cons_self, ‹_›⟩
    · exact absurd ‹some u = none› (by simp)
    · obtain ⟨m', hm', htag⟩ := ih h
      exact ⟨m', List.mem_cons_of_mem m hm', htag⟩

/-- Nothing of `q` comes before the request `t` of `p` any more, on the link of `q` and `p`. -/
structure Passed (t p q : Int) (k : Link) : Prop where
  late : Late t p q k.left
  flight : ∀ m ∈ k.out, m.tag = .request → isGreater t p m.value q = false
  queue : ∀ u, k.right.lamport.requestQ q = some u → isGreater t p u q = false

variable {net : Mesh} {Ok : Handling} {k k' : Link}

theorem Passed.left (hqp : q ≠ p) (h : Passed t p q k) (hstep : LeftStep net Ok q p k k') :
    Passed t p q k' := by
  obtain ⟨hlate, hflight, hqueue⟩ := h
  -- a request is sent by a statement only, and an acknowledgement by the handler
  have hack : ∀ v tag, ∀ m ∈ select p (k.left.handle q v p tag).2, m.tag ≠ .request := by
    intro v tag m hm
    rw [MutexNode.ack_of_mem_select hm]
    simp
  cases hstep with
  | stmt =>
    refine ⟨hlate.requester _, ?_, hqueue⟩
    intro m hm htag
    rcases List.mem_append.mp hm with hm | hm
    · exact hflight m hm htag
    · exact hlate.ticks _ (ticks?_of_request hm htag)
  | handle m rest hback _ =>
    refine ⟨hlate.handle hqp.symm, ?_, hqueue⟩
    intro x hx htag
    rcases List.mem_append.mp hx with hx | hx
    · exact hflight x hx htag
    · exact absurd htag (hack _ _ x hx)
  | other c m hc _ _ => exact ⟨hlate.handle hc, hflight, hqueue⟩

theorem Passed.right (hqp : q ≠ p) (h : Passed t p q k) (hstep : LeftStep net Ok p q k.swap k') :
    Passed t p q k'.swap := by
  obtain ⟨hlate, hflight, hqueue⟩ := h
  cases hstep with
  | stmt =>
    refine ⟨hlate, hflight, ?_⟩
    intro u hu
    exact hqueue u (by rwa [Link.swap, requester_requestQ_of_ne _ _ hqp] at hu)
  | handle m rest hout _ =>
    have hout : k.out = m :: rest := hout
    refine ⟨hlate, ?_, ?_⟩
    · intro x hx
      exact hflight x (hout ▸ List.mem_cons_of_mem m hx)
    · intro u hu
      simp only [Link.swap, MutexNode.handle, LamportMutex.handleMsg_requestQ, true_and] at hu
      split at hu
      · rename_i htag
        exact Option.some.inj hu ▸ hflight m (hout ▸ List.mem_cons_self) htag
      · split at hu
        · exact absurd hu (by simp)
        · exact hqueue u hu
  | other c m hcp hcq _ =>
    refine ⟨hlate, hflight, ?_⟩
    intro u hu
    have hne : ¬ q = c := fun h => hcq h.symm
    exact hqueue u (by
      simpa [Link.swap, MutexNode.handle, LamportMutex.handleMsg_requestQ, hne] using hu)

end

end Mutex
end Epidemica
