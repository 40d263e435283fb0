import Mathlib.Logic.Function.Basic

/-!
# `Mutex.DirectClock` — the direct-dependency clock

`m_Ticks` is an `unordered_map<int,int>` whose `operator[]` gives `0` for an absent key: a total function.
`m_Id` never changes after construction and is the argument `me`.
-/

namespace Epidemica

/-- `class DirectClock`: `ticks i` is the entry for node `i`. -/
structure DirectClock where
  ticks : Int → Int

namespace DirectClock

/-- The constructor: the own entry starts at `1`. -/
def init (me : Int) : DirectClock := ⟨Function.update (fun _ => 0) me 1⟩

/-- `GetValue`. -/
def getValue (c : DirectClock) (i : Int) : Int := c.ticks i

/-- `Tick`. -/
def tick (me : Int) (c : DirectClock) : DirectClock :=
  ⟨Function.update c.ticks me (c.ticks me + 1)⟩

/-- `RecieveAction`: the entry of the sender, and the own one past what was sent. -/
def recieveAction (me : Int) (c : DirectClock) (sender sentValue : Int) : DirectClock :=
  let ticks := Function.update c.ticks sender
    (if c.ticks sender > sentValue then c.ticks sender else sentValue)
  ⟨Function.update ticks me ((if ticks me > sentValue then ticks me else sentValue) + 1)⟩

/-! ## What each operation does to each entry -/

variable {me : Int} {c : DirectClock}

@[simp] theorem getValue_init (i : Int) : (init me).getValue i = if i = me then 1 else 0 := by
  by_cases h : i = me <;> simp [getValue, init, h]

@[simp] theorem getValue_tick (i : Int) :
    (c.tick me).getValue i = if i = me then c.getValue me + 1 else c.getValue i := by
  by_cases h : i = me <;> simp [getValue, tick, h]

/-- Receiving moves the own entry past both clocks. -/
@[simp] theorem getValue_recieveAction_self {sender v : Int} (h : sender ≠ me) :
    (c.recieveAction me sender v).getValue me = max (c.getValue me) v + 1 := by
  simp only [getValue, recieveAction, Function.update_self, Function.update_of_ne h.symm]
  split <;> omega

/-- Receiving raises the sender's entry to the value sent. -/
@[simp] theorem getValue_recieveAction_sender {sender v : Int} (h : sender ≠ me) :
    (c.recieveAction me sender v).getValue sender = max (c.getValue sender) v := by
  simp only [getValue, recieveAction, Function.update_of_ne h, Function.update_self]
  split <;> omega

/-- Receiving changes no third entry. -/
theorem getValue_recieveAction_of_ne {sender v i : Int} (hi : i ≠ me) (hs : i ≠ sender) :
    (c.recieveAction me sender v).getValue i = c.getValue i := by
  simp [getValue, recieveAction, hi, hs]

end DirectClock

end Epidemica
