import Mathlib.Algebra.GroupWithZero.Nat
import Mathlib.Logic.Function.Basic

/-! The virtual timers of `sys/virt_timer.c`. Timer objects are named by 16-bit
addresses, tick counts are `unsigned long` and wrap at 32 bits. A walk that is
longer than the address space ends in `none`: it would never return. -/
namespace BermudaOS.Sys.VirtTimer

abbrev Addr := Fin (2^16)

instance addr_neZero : NeZero (2^16) := ⟨by decide⟩

instance addr_lawful : LawfulBEq Addr := inferInstance

def addrLimit : Nat := 2^16

def add32 (a b : Nat) : Nat := (a + b) % 2^32

def sub32 (a b : Nat) : Nat := (a + (2^32 - b % 2^32)) % 2^32

/-- `BermudaTimerMillisToTicks`, at a tick frequency of 1000 Hz. -/
def bermudaTimerMillisToTicks (ms : Nat) : Nat := (ms * 1000) % 2^32 / 1000

def bermudaOneShot : Nat := 1

def bermudaPeriodic : Nat := 0

structure VTimer (Handle : Type) where
  next : Option Addr
  handle : Option Handle
  arg : Addr
  ticksLeft : Nat
  ticks : Nat

structure Timers (Handle : Type) where
  node : Addr → VTimer Handle
  bermudaTimerList : Option Addr
  lastSysTick : Nat

namespace Timers

variable {Handle : Type}

def update (v : Timers Handle) (timer : Addr) (f : VTimer Handle → VTimer Handle) :
    Timers Handle := {v with node := Function.update v.node timer (f (v.node timer))}

def setNext (v : Timers Handle) (timer : Addr) (p : Option Addr) : Timers Handle :=
  v.update timer fun t => {t with next := p}

def setLeft (v : Timers Handle) (timer : Addr) (n : Nat) : Timers Handle :=
  v.update timer fun t => {t with ticksLeft := n}

end Timers

variable {Handle : Type}

/-- The loop of `BermudaTimerAdd`: the timers with their counts compensated, the
timer to go in front of and the one to go behind. -/
def addWalk (timer : Addr) : Nat → Timers Handle → Option Addr → Option Addr →
    Option (Timers Handle × Option Addr × Option Addr)
  | _,v,none,prev => some (v,none,prev)
  | 0,_,some _,_ => none
  | fuel+1,v,some vtp,prev =>
    if (v.node timer).ticksLeft < (v.node vtp).ticksLeft then
      some (v.setLeft vtp (sub32 (v.node vtp).ticksLeft (v.node timer).ticksLeft),some vtp,prev)
    else
      let v := v.setLeft timer (sub32 (v.node timer).ticksLeft (v.node vtp).ticksLeft)
      addWalk timer fuel v (v.node vtp).next (some vtp)

def bermudaTimerAdd (v : Timers Handle) (timer : Addr) : Option (Timers Handle) := do
  let (v,vtp,prev) ← addWalk timer addrLimit v v.bermudaTimerList none
  let v := v.setNext timer vtp
  match prev with
  | some prev => return v.setNext prev (some timer)
  | none => return {v with bermudaTimerList := some timer}

/-- `timer` is the object the heap hands out; `now` is the system tick. -/
def bermudaTimerCreate (v : Timers Handle) (timer : Addr) (now ms : Nat) (fn : Option Handle)
    (arg : Addr) (flags : Nat) : Option (Timers Handle) :=
  let ticks := bermudaTimerMillisToTicks ms
  bermudaTimerAdd (v.update timer fun _ =>
    {next := none,handle := fn,arg := arg,
     ticksLeft := sub32 (add32 ticks now) v.lastSysTick,
     ticks := if flags &&& bermudaOneShot ≠ 0 then 0 else ticks}) timer

/-- The search loop of `BermudaTimerStop`: the timer before the one to stop. -/
def stopWalk (v : Timers Handle) (timer : Addr) : Nat → Option Addr → Option Addr →
    Option (Option Addr)
  | _,none,prev => some prev
  | 0,some _,_ => none
  | fuel+1,some tqp,prev =>
    if tqp = timer then some prev else stopWalk v timer fuel (v.node tqp).next (some tqp)

def unlink (v : Timers Handle) (timer : Addr) (prev : Option Addr) : Timers Handle :=
  match prev with
  | some prev => v.setNext prev (v.node timer).next
  | none => {v with bermudaTimerList := (v.node timer).next}

/-- The ticks a stopped timer had left go to the timer behind it. -/
def passOn (v : Timers Handle) (timer : Addr) : Timers Handle :=
  match (v.node timer).next with
  | some next => v.setLeft next (add32 (v.node next).ticksLeft (v.node timer).ticksLeft)
  | none => v

def bermudaTimerStop (v : Timers Handle) (timer : Addr) : Option (Timers Handle) :=
  let v := v.update timer fun t => {t with handle := none,ticks := 0}
  if (v.node timer).ticksLeft = 0 then some v else do
    let prev ← stopWalk v timer addrLimit v.bermudaTimerList none
    return (passOn (unlink v timer prev) timer).setLeft timer 0

/-- The loop of `BermudaTimerProcess` up to the call of the handle: the count of
the head is reduced, and what is left of `diff`. -/
def distribute (v : Timers Handle) (timer : Addr) (diff : Nat) : Timers Handle × Nat :=
  if (v.node timer).ticksLeft < diff then (v.setLeft timer 0,diff - (v.node timer).ticksLeft)
  else (v.setLeft timer ((v.node timer).ticksLeft - diff),0)

/-- What follows the call of the handle: the elapsed head is unlinked and freed,
or goes back into the list with its period. -/
def retire (v : Timers Handle) (timer : Addr) : Option (Timers Handle) :=
  let v := {v with bermudaTimerList := (v.node timer).next}
  let v := v.setLeft timer (v.node timer).ticks
  if (v.node timer).ticksLeft = 0 then some v else bermudaTimerAdd v timer

/-- Every pass fires a timer or ends the loop, and a timer fires at most once a tick. -/
def processLimit : Nat := 2^48 + 2

/-- `fire` is what a handle does to the rest of the system. -/
def processWalk {σ : Type} (fire : Handle → Addr → Addr → σ → σ) : Nat → Nat → Timers Handle → σ →
    Option (Timers Handle × σ)
  | 0,_,_,_ => none
  | fuel+1,diff,v,s =>
    match v.bermudaTimerList with
    | none => some (v,s)
    | some timer =>
      if diff = 0 then some (v,s) else
        let (v,diff) := distribute v timer diff
        if (v.node timer).ticksLeft = 0 then do
          let s := match (v.node timer).handle with
            | some handle => fire handle timer (v.node timer).arg s
            | none => s
          let v ← retire v timer
          processWalk fire fuel diff v s
        else processWalk fire fuel diff v s

def bermudaTimerProcess {σ : Type} (fire : Handle → Addr → Addr → σ → σ) (now : Nat)
    (v : Timers Handle) (s : σ) : Option (Timers Handle × σ) :=
  let diff := sub32 now v.lastSysTick
  processWalk fire processLimit diff {v with lastSysTick := now} s

end BermudaOS.Sys.VirtTimer
