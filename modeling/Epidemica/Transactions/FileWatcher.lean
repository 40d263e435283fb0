import Mathlib.Algebra.Order.Ring.Int
import Mathlib.Data.List.Infix

/-!
# `Transactions.FileWatcher` — which file events reach the controller

`handleFileAction` lets an event through when more than 500 microseconds have passed since the call before
it returned, whatever file that call was for. A time is a count of the ticks of `system_clock`, of which
there are `k` in a microsecond. Nothing is assumed about the events but that they come one at a time.
-/

namespace Epidemica
namespace FileWatcher

/-- `efsw::Action`: only `Modified` is looked at. -/
inductive Action where
  | modified | other
  deriving DecidableEq, Repr

/-- One delivery: what `handleFileAction` is called with, when, and for how long `m_Handler` would run. -/
structure Event where
  dir : List Char
  filename : List Char
  action : Action
  time : Int
  duration : Nat
  deriving DecidableEq, Repr

/-- A call of `handleFileAction`: what `m_Handler` was called with in it, if at all, and when it returned. -/
structure Call where
  event : Event
  handler : Option (List Char × List Char)
  returned : Int
  deriving DecidableEq, Repr

/-- `m_Handler` was called. -/
def Call.ran (c : Call) : Bool := c.handler.isSome

/-- `duration_cast<microseconds>(d).count()`. -/
def microseconds (k : Nat) (d : Int) : Int := d.tdiv k

/-- `handleFileAction`, with `m_Start` as the previous call left it. What the call returns at becomes
    `m_Start`. -/
def handleFileAction (k : Nat) (start : Int) (e : Event) : Call :=
  if microseconds k (e.time - start) > 500 then
    match e.action with
    | .modified => ⟨e, some (e.filename, e.dir), e.time + e.duration⟩
    | .other => ⟨e, none, e.time⟩
  else ⟨e, none, e.time⟩

/-- `m_Start` after the given calls, the last one first, on a watcher constructed at `t₀`. -/
def start (t₀ : Int) : List Call → Int
  | [] => t₀
  | c :: _ => c.returned

/-- The calls for a list of events, the last one first. -/
def calls (k : Nat) (t₀ : Int) (events : List Event) : List Call :=
  events.foldl (fun past e => handleFileAction k (start t₀ past) e :: past) []

/-- No event is delivered before the call for the one before it has returned. -/
def OneAtATime (k : Nat) (t₀ : Int) (events : List Event) : Prop :=
  ∀ c past, c :: past <:+ calls k t₀ events → start t₀ past ≤ c.event.time

instance (k : Nat) (t₀ : Int) (events : List Event) : Decidable (OneAtATime k t₀ events) :=
  decidable_of_iff
    (∀ l ∈ (calls k t₀ events).tails, ∀ c ∈ l.head?, start t₀ l.tail ≤ c.event.time) <| by
  constructor
  · intro h c past hc
    exact h (c :: past) ((List.mem_tails _ _).mpr hc) c rfl
  · intro h l hl c hc
    rw [List.eq_cons_of_mem_head? hc] at hl
    exact h c l.tail ((List.mem_tails _ _).mp hl)

/-- `e` comes within 500 microseconds of the return of a call for the same file. -/
def Repeats (k : Nat) (past : List Call) (e : Event) : Prop :=
  ∃ d ∈ past, d.event.filename = e.filename ∧ e.time ≤ d.returned + 500 * k

/-- The last call for a file. -/
def lastCall (filename : List Char) (past : List Call) : Option Call :=
  past.find? (·.event.filename = filename)

/-- What is given when `e` comes and keeps it from being lost: it does not come in the microsecond that the
    cast rounds away, and if a call for another file has just returned, so has the last one for its own. -/
structure Spared (k : Nat) (t₀ : Int) (past : List Call) (e : Event) : Prop where
  rounding : ¬ (start t₀ past + 500 * k < e.time ∧ e.time < start t₀ past + 501 * k)
  shared : ∀ d ∈ past.head?, d.event.filename ≠ e.filename → e.time ≤ d.returned + 500 * k →
    ∃ own ∈ lastCall e.filename past, e.time ≤ own.returned + 500 * k

/-! ## One call -/

@[simp] theorem handleFileAction_event (k : Nat) (t : Int) (e : Event) :
    (handleFileAction k t e).event = e := by
  unfold handleFileAction
  split
  · split <;> rfl
  · rfl

theorem le_returned (k : Nat) (t : Int) (e : Event) : e.time ≤ (handleFileAction k t e).returned := by
  unfold handleFileAction
  split
  · split
    · simp only
      omega
    · exact le_refl _
  · exact le_refl _

theorem microseconds_gt_iff {k : Nat} (hk : 0 < k) {d : Int} (hd : 0 ≤ d) :
    microseconds k d > 500 ↔ 501 * (k : Int) ≤ d := by
  unfold microseconds
  rw [Int.tdiv_eq_ediv_of_nonneg hd]
  show (501 : Int) ≤ d / k ↔ _
  exact Int.le_ediv_iff_mul_le (by omega)

/-- The handler runs when 501 microseconds have passed. -/
theorem ran_iff {k : Nat} (hk : 0 < k) {t : Int} {e : Event} (hm : e.action = .modified)
    (ht : t ≤ e.time) : (handleFileAction k t e).ran = true ↔ t + 501 * k ≤ e.time := by
  have hmicro := microseconds_gt_iff hk (d := e.time - t) (by omega)
  unfold handleFileAction
  rw [hm]
  split
  · rename_i h
    have := hmicro.mp h
    exact ⟨fun _ => by omega, fun _ => rfl⟩
  · rename_i h
    refine ⟨fun hfalse => absurd hfalse (by simp [Call.ran]), fun hle => absurd (hmicro.mpr (by omega)) h⟩

/-! ## Every run -/

section
variable {k : Nat} {t₀ : Int} {events : List Event}

/-- Each call is what `handleFileAction` makes of its event and the calls before it. -/
theorem call_eq {c : Call} {past : List Call} (h : c :: past <:+ calls k t₀ events) :
    c = handleFileAction k (start t₀ past) c.event := by
  induction events using List.reverseRecOn with
  | nil => exact absurd (List.suffix_nil.mp h) (List.cons_ne_nil _ _)
  | append_singleton events e ih =>
    unfold calls at h
    rw [List.foldl_append] at h
    rcases List.suffix_cons_iff.mp h with heq | hlater
    · obtain ⟨rfl, rfl⟩ := List.cons.inj heq
      rw [handleFileAction_event]
    · exact ih hlater

/-- No call returns after `m_Start`. -/
theorem returned_le_start (hone : OneAtATime k t₀ events) {past : List Call}
    (h : past <:+ calls k t₀ events) : t₀ ≤ start t₀ past ∧ ∀ d ∈ past, d.returned ≤ start t₀ past := by
  induction past with
  | nil => exact ⟨le_refl _, List.forall_mem_nil _⟩
  | cons c past ih =>
    obtain ⟨hstart, hpast⟩ := ih ((List.suffix_cons c past).trans h)
    have hbegin := hone c past h
    have hreturn : c.event.time ≤ c.returned := by
      rw [call_eq h, handleFileAction_event]
      exact le_returned _ _ _
    show t₀ ≤ c.returned ∧ ∀ d ∈ c :: past, d.returned ≤ c.returned
    refine ⟨by omega, ?_⟩
    intro d hd
    rcases List.mem_cons.mp hd with rfl | hd
    · exact le_refl _
    · have := hpast d hd
      omega

/-- Of the calls for a file the last one returns last. -/
theorem returned_le_lastCall (hone : OneAtATime k t₀ events) {past : List Call}
    (h : past <:+ calls k t₀ events) {d : Call} (hd : d ∈ past) :
    ∃ own ∈ lastCall d.event.filename past, d.returned ≤ own.returned := by
  induction past with
  | nil => exact absurd hd (by simp)
  | cons c past ih =>
    unfold lastCall
    by_cases hfile : c.event.filename = d.event.filename
    · rw [List.find?_cons_of_pos (by simpa using hfile)]
      exact ⟨c, rfl, (returned_le_start hone h).2 d hd⟩
    · have hd : d ∈ past := (List.mem_cons.mp hd).resolve_left (fun he => hfile (he ▸ rfl))
      rw [List.find?_cons_of_neg (by simpa using hfile)]
      exact ih ((List.suffix_cons c past).trans h) hd

theorem repeats_iff (hone : OneAtATime k t₀ events) {past : List Call}
    (h : past <:+ calls k t₀ events) (e : Event) :
    Repeats k past e ↔ ∃ own ∈ lastCall e.filename past, e.time ≤ own.returned + 500 * k := by
  constructor
  · rintro ⟨d, hd, hfile, hnear⟩
    obtain ⟨own, hown, hle⟩ := returned_le_lastCall hone h hd
    rw [hfile] at hown
    exact ⟨own, hown, by omega⟩
  · rintro ⟨own, hown, hnear⟩
    exact ⟨own, List.mem_of_find?_eq_some hown, by simpa using List.find?_some hown, hnear⟩

/-- One event is handled or repeats another exactly if the debounce spares it. -/
theorem ran_or_repeats_iff (hk : 0 < k) (hone : OneAtATime k t₀ events) {c : Call} {past : List Call}
    (h : c :: past <:+ calls k t₀ events) (hm : c.event.action = .modified)
    (hlate : t₀ + 500 * k < c.event.time) :
    (c.ran = true ∨ Repeats k past c.event) ↔ Spared k t₀ past c.event := by
  have hpast : past <:+ calls k t₀ events := (List.suffix_cons c past).trans h
  obtain ⟨-, hreturned⟩ := returned_le_start hone hpast
  have hran : c.ran = true ↔ start t₀ past + 501 * k ≤ c.event.time := by
    rw [call_eq h, handleFileAction_event]
    exact ran_iff hk hm (hone c past h)
  rw [hran]
  constructor
  · rintro (hle | hrep)
    · refine ⟨by omega, ?_⟩
      intro d hd _ hnear
      have hstart : start t₀ past = d.returned := by
        rw [List.eq_cons_of_mem_head? hd]
        rfl
      omega
    · refine ⟨?_, fun _ _ _ _ => (repeats_iff hone hpast _).mp hrep⟩
      obtain ⟨d, hd, -, hnear⟩ := hrep
      have := hreturned d hd
      omega
  · intro hspared
    by_cases hle : start t₀ past + 501 * k ≤ c.event.time
    · exact Or.inl hle
    · have hrounding := hspared.rounding
      have hnear : c.event.time ≤ start t₀ past + 500 * k := by omega
      refine Or.inr ?_
      cases past with
      | nil =>
        -- the watcher has just been constructed
        exact absurd hlate (not_lt_of_ge hnear)
      | cons d past =>
        by_cases hfile : d.event.filename = c.event.filename
        · exact ⟨d, List.mem_cons_self .., hfile, hnear⟩
        · exact (repeats_iff hone hpast _).mpr (hspared.shared d rfl hfile hnear)

/-- Every modification is handled, or repeats an event of the same file, if and only if the debounce
    spares every modification. -/
theorem modified_handled_iff (k : Nat) (hk : 0 < k) (t₀ : Int) (events : List Event)
    (hone : OneAtATime k t₀ events) :
    (∀ c past, c :: past <:+ calls k t₀ events → c.event.action = .modified →
        t₀ + 500 * k < c.event.time → c.ran = true ∨ Repeats k past c.event) ↔
      ∀ c past, c :: past <:+ calls k t₀ events → c.event.action = .modified →
        t₀ + 500 * k < c.event.time → Spared k t₀ past c.event := by
  constructor
  · intro h c past hc hm hlate
    exact (ran_or_repeats_iff hk hone hc hm hlate).mp (h c past hc hm hlate)
  · intro h c past hc hm hlate
    exact (ran_or_repeats_iff hk hone hc hm hlate).mpr (h c past hc hm hlate)

/-- A save of `A1.txt` whose transaction takes 2000 microseconds. -/
def slowSave : Event := ⟨[], ['A', '1', '.', 't', 'x', 't'], .modified, 10000, 20000⟩

/-- A save of `A2.txt` 100 microseconds after that transaction. -/
def otherSave : Event := ⟨[], ['A', '2', '.', 't', 'x', 't'], .modified, 31000, 20000⟩

/-- Another event for `A1.txt` after 100 microseconds, and a save of `A2.txt` 900 microseconds after that. -/
def spacedSaves : List Event :=
  [slowSave, { slowSave with time := 31000 }, { otherSave with time := 40000 }]

/-- The second event repeats the first, and the other two are handled. -/
theorem spacedSaves_handled :
    (calls 10 0 spacedSaves).map Call.ran = [true, false, true] ∧
      ∀ c past, c :: past <:+ calls 10 0 spacedSaves → c.ran = true ∨ Repeats 10 past c.event := by
  refine ⟨by decide, ?_⟩
  have hone : OneAtATime 10 0 spacedSaves := by decide
  have hmodified : ∀ c ∈ calls 10 0 spacedSaves, c.event.action = .modified ∧ 5000 < c.event.time := by decide
  have hspared : ∀ c past, c :: past <:+ calls 10 0 spacedSaves → Spared 10 0 past c.event := by
    intro c past h
    rcases List.suffix_cons_iff.mp h with heq | h
    · -- the save of `A2.txt` comes late enough
      obtain ⟨rfl, rfl⟩ := List.cons.inj heq
      exact ⟨by decide, by decide⟩
    · rcases List.suffix_cons_iff.mp h with heq | h
      · -- the event in front of it is for the same file
        obtain ⟨rfl, rfl⟩ := List.cons.inj heq
        exact ⟨by decide, by decide⟩
      · rcases List.suffix_cons_iff.mp h with heq | hnil
        · obtain ⟨rfl, rfl⟩ := List.cons.inj heq
          exact ⟨by decide, by decide⟩
        · exact absurd (List.suffix_nil.mp hnil) (List.cons_ne_nil _ _)
  intro c past h
  obtain ⟨hm, hlate⟩ := hmodified c (h.subset List.mem_cons_self)
  exact (modified_handled_iff 10 (by decide) 0 spacedSaves hone).mpr (fun c past h _ _ => hspared c past h)
    c past h hm hlate

/-- With ten ticks in a microsecond, the second save is dropped because of the first. -/
theorem otherSave_dropped :
    OneAtATime 10 0 [slowSave, otherSave] ∧
      ¬ ∀ c past, c :: past <:+ calls 10 0 [slowSave, otherSave] → c.event.action = .modified →
        (0 : Int) + 500 * (10 : Nat) < c.event.time → c.ran = true ∨ Repeats 10 past c.event := by
  refine ⟨by decide, ?_⟩
  intro h
  rcases h ⟨otherSave, none, 31000⟩ [⟨slowSave, some (slowSave.filename, []), 30000⟩] (by decide)
      (by decide) (by decide) with
    hran | ⟨d, hd, hfile, -⟩
  · exact absurd hran (by decide)
  · rw [List.mem_singleton.mp hd] at hfile
    exact absurd hfile (by decide)

end

end FileWatcher
end Epidemica
