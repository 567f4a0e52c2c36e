import BermudaOS.Sys.Kernel

/-! The scheduler, thread and event functions of `sys/sched.c`, `sys/thread.c` and
`sys/events/event.c`, cut into their critical sections. Interrupts can come before
every action; a context switch happens only where `BermudaSwitchTask` is called. -/
namespace BermudaOS.Sys.Sched
open VirtTimer Lib.Program

abbrev Code := Prog Kernel

/-- `t` is linked in front of `tqp`, and takes over the events pending on it. -/
def place (r : Ref) (tqp : Option Addr) (t : Addr) (k : Kernel) : Kernel :=
  let k := (k.setLink (.next t) tqp).setLink r (some t)
  match k.next t with
  | none => k
  | some n =>
    if (k.thread n).ec = 0 then k
    else (k.setEc t (((k.thread t).ec + (k.thread n).ec) % 2^8)).setEc n 0

/-- The first critical section of `BermudaThreadPrioQueueAdd`, where an empty queue
takes the thread at once and a signaled one leaves it an event. -/
def enterQueue (q : Ref) (t : Addr) (k : Kernel) : Kernel :=
  if k.link q = signaled then place q none t (k.setEc t (((k.thread t).ec + 1) % 2^8))
  else if k.link q = none then place q none t k
  else k

def prioWalk (k : Kernel) (prio : Nat) : Nat → Ref → Option Addr → Option (Ref × Option Addr)
  | _,r,none => some (r,none)
  | 0,_,some _ => none
  | fuel+1,r,some tqp =>
    if (k.thread tqp).prio ≤ prio then prioWalk k prio fuel (.next tqp) (k.next tqp)
    else some (r,some tqp)

def bermudaThreadPrioQueueAdd (q : Ref) (t : Addr) : Code Unit := do
  Prog.act fun k => ((k.setEc t 0).setQueue t (some q)).stamp t
  let tqp ← Prog.access (enterQueue q t) fun k => k.link q
  if tqp = signaled ∨ tqp = none then return ()
  match ← Prog.get fun k => prioWalk k (k.thread t).prio addrLimit q tqp with
  | none => Prog.fault
  | some (r,c) => Prog.act (place r c t)

def removeWalk (k : Kernel) (t : Addr) : Nat → Ref → Option Addr → Option (Option Ref)
  | _,_,none => some none
  | 0,_,some _ => none
  | fuel+1,r,some tqp =>
    if tqp = t then some (some r) else removeWalk k t fuel (.next tqp) (k.next tqp)

/-- The critical section of `BermudaThreadQueueRemove` that unlinks the thread. -/
def cut (r : Ref) (t : Addr) (k : Kernel) : Kernel :=
  let k := k.setLink r (k.next t)
  if (k.thread t).ec = 0 then k
  else
    match k.next t with
    | some n => (k.setEc n (k.thread t).ec).setEc t 0
    | none => k.setEc t 0

def bermudaThreadQueueRemove (q : Ref) (t : Addr) : Code Unit := do
  let tqp ← Prog.get fun k => k.link q
  if tqp = signaled then return ()
  match ← Prog.get fun k => removeWalk k t addrLimit q tqp with
  | none => Prog.fault
  | some none => return ()
  | some (some r) =>
    Prog.act (cut r t)
    Prog.act fun k => (k.setLink (.next t) none).setQueue t none

/-- A waiting thread leaves its event queue; the events pending on it go to the
thread behind it, or back to the queue. -/
def detach (r : Ref) (t : Addr) (k : Kernel) : Kernel :=
  let k := k.setLink r (k.next t)
  if (k.thread t).ec = 0 then k
  else
    match k.next t with
    | some n => (k.setEc n (k.thread t).ec).setEc t 0
    | none => (k.setLink r signaled).setEc t 0

/-- A call of the timer module, which does not touch the rest of the kernel. -/
def onTimers (f : Timers Callback → Option (Timers Callback)) : Code Unit := do
  let ended ← Prog.access (fun k => {k with timers := (f k.timers).getD k.timers})
    fun k => (f k.timers).isSome
  if ended then return () else Prog.fault

/-- The timer of a thread that is woken in time. -/
def cancelTimer (t : Addr) : Code Unit := do
  match ← Prog.get fun k => (k.thread t).thTimer with
  | some timer =>
    onTimers fun v => bermudaTimerStop v timer
    Prog.act fun k => k.setTimer t none
  | none => return ()

def bermudaEventSignalRaw (q : Ref) : Code Int := do
  let t ← Prog.get fun k => k.link q
  if t = signaled then return -1
  match t with
  | none =>
    Prog.act fun k => (k.release q).setLink q signaled
    return 0
  | some t =>
    Prog.act fun k => (detach q t k).handOver q t
    cancelTimer t
    Prog.act fun k => k.setState t .ready
    bermudaThreadPrioQueueAdd .bermudaRunQueue t
    return 0

def tmoWalk (k : Kernel) (timer : Addr) : Nat → Ref → Option Addr → Option (Option (Ref × Addr))
  | _,_,none => some none
  | 0,_,some _ => none
  | fuel+1,r,some tqp =>
    if (k.thread tqp).thTimer = some timer then some (some (r,tqp))
    else tmoWalk k timer fuel (.next tqp) (k.next tqp)

def bermudaEventTMO (timer q : Addr) : Code Unit := do
  let tqp ← Prog.get fun k => k.link (.event q)
  if tqp = signaled then return ()
  match ← Prog.get fun k => tmoWalk k timer addrLimit (.event q) tqp with
  | none => Prog.fault
  | some none => return ()
  | some (some (r,t)) =>
    Prog.act (detach r t)
    Prog.act fun k => k.setState t .ready
    bermudaThreadPrioQueueAdd .bermudaRunQueue t
    Prog.act fun k => k.setTimer t signaled

def bermudaThreadTimeout (t : Addr) : Code Unit := do
  Prog.act fun k => (k.setState t .ready).setTimer t none
  bermudaThreadPrioQueueAdd .bermudaRunQueue t

def runCallback (timer : Addr) (h : Callback) (arg : Addr) : Code Unit :=
  match h with
  | .bermudaThreadTimeout => bermudaThreadTimeout arg
  | .bermudaEventTmo => bermudaEventTMO timer arg

/-- An elapsed timer calls its handle and leaves the list, or starts again. -/
def elapse (timer : Addr) : Code Unit := do
  match ← Prog.get fun k => (k.timers.node timer).handle with
  | some h =>
    let arg ← Prog.get fun k => (k.timers.node timer).arg
    runCallback timer h arg
  | none => pure ()
  onTimers fun v => retire v timer

/-- The loop of `BermudaTimerProcess`, with the kernel's call-backs. -/
def timerLoop : Nat → Nat → Code Unit
  | 0,_ => Prog.fault
  | fuel+1,diff => do
    match ← Prog.get fun k => k.timers.bermudaTimerList with
    | none => return ()
    | some timer =>
      if diff = 0 then return ()
      let left ← Prog.access (fun k => {k with timers := (distribute k.timers timer diff).1})
        fun k => (distribute k.timers timer diff).2
      let elapsed ← Prog.get fun k => decide ((k.timers.node timer).ticksLeft = 0)
      if elapsed then elapse timer
      timerLoop fuel left

def bermudaTimerProcess : Code Unit := do
  let now ← Prog.get fun k => k.bermudaSystemTick
  let diff ← Prog.access (fun k => {k with timers := {k.timers with lastSysTick := now}})
    fun k => sub32 now k.timers.lastSysTick
  timerLoop processLimit diff

/-- An event that an interrupt left with a thread is posted to the thread's queue. -/
def postEvent (t : Addr) : Code Unit := do
  let ec ← Prog.get fun k => (k.thread t).ec
  if ec = 0 then return ()
  match ← Prog.get fun k => (k.thread t).queue with
  | none => Prog.fault
  | some qhp =>
    let tqp ← Prog.access (fun k => k.setEc t (((k.thread t).ec + 2^8 - 1) % 2^8)) fun k => k.link qhp
    if tqp = signaled then return ()
    let _ ← bermudaEventSignalRaw qhp

/-- Point 1 of `BermudaSchedulerExec`: the events posted by interrupts. -/
def postEvents : Nat → Option Addr → Code Unit
  | _,none => return ()
  | 0,some _ => Prog.fault
  | fuel+1,some t => do
    postEvent t
    let onward ← Prog.get fun k => k.qNext t
    postEvents fuel onward

/-- Point 2: the timers, where there are new ticks. -/
def processTicks : Code Unit := do
  let tickNew ← Prog.get fun k => k.bermudaSystemTick
  let resume ← Prog.get fun k => k.tickResume
  if tickNew = resume then return ()
  bermudaTimerProcess
  Prog.act fun k => {k with tickResume := tickNew}

/-- `BermudaSwitchTask` up to the point where the old thread gets the processor back. -/
def bermudaSwitchTask : Code Unit := do
  match ← Prog.get fun k => k.link .bermudaRunQueue with
  | none => Prog.fault
  | some _ => Prog.yieldCpu

/-- The loop of `BermudaThreadFree`; the memory of the threads goes back to the heap. -/
def freeLoop : Nat → Code Unit
  | 0 => Prog.fault
  | fuel+1 => do
    match ← Prog.get fun k => k.link .bermudaKillQueue with
    | none => return ()
    | some kill =>
      bermudaThreadQueueRemove .bermudaKillQueue kill
      freeLoop fuel

def bermudaThreadFree : Code Unit := freeLoop (addrLimit + 1)

/-- A running thread that has lost its top position is ready. -/
def standBy (k : Kernel) : Kernel :=
  if (k.thread k.bermudaCurrentThread).state = .running then k.setState k.bermudaCurrentThread .ready
  else k

/-- Point 4: another thread runs if the current one lost the top of the run queue. -/
def executeNew : Code Unit := do
  let lost ← Prog.get fun k => decide (k.link .bermudaRunQueue ≠ some k.bermudaCurrentThread)
  if lost then
    Prog.act standBy
    bermudaSwitchTask

def bermudaSchedulerExec : Code Unit := do
  let head ← Prog.get fun k => k.link .bermudaThreadHead
  postEvents addrLimit head
  processTicks
  executeNew
  bermudaThreadFree

/-- The thread that runs, in the code of that thread. -/
def self : Code Addr := Prog.get fun k => k.bermudaCurrentThread

/-- The first part of `BermudaThreadYield`: the thread goes behind its equals. -/
def requeue : Code Unit := do
  let t ← self
  let next ← Prog.get fun k => k.next t
  if next ≠ none then
    bermudaThreadQueueRemove .bermudaRunQueue t
    bermudaThreadPrioQueueAdd .bermudaRunQueue t

def bermudaThreadYield : Code Unit := do
  requeue
  bermudaSchedulerExec

def bermudaThreadInit (name : List Char) (prio : Nat) (t : Addr) (k : Kernel) : Kernel :=
  ((k.setThread t fun th => {th with prio := prio,state := .ready,name := name}).setLink
    (.qNext t) none).setLink (.next t) none

def bermudaThreadCreate (t : Addr) (name : List Char) (prio : Nat) : Code Unit := do
  Prog.act (bermudaThreadInit name prio t)
  Prog.act fun k => ((k.setLink (.qNext t) (k.link .bermudaThreadHead)).setLink .bermudaThreadHead
    (some t)).create t
  bermudaThreadPrioQueueAdd .bermudaRunQueue t

/-- `BermudaTimerCreate`. The heap never refuses a request of this size with a null
pointer: it resets the system when it has no block left. -/
def createTimer (ms : Nat) (fn : Callback) (arg : Addr) : Code Addr := do
  match ← Prog.get fun k => k.heapOffer with
  | none => Prog.exit
  | some timer =>
    let now ← Prog.get fun k => k.bermudaSystemTick
    onTimers fun v => bermudaTimerCreate v timer now ms (some fn) arg bermudaOneShot
    return timer

def bermudaSchedulerInit (idle : Addr) : Code Unit := do
  bermudaThreadCreate idle ['I','D','L','E'] 255
  Prog.act fun k => {k with bermudaCurrentThread := idle}

def bermudaThreadSleep (ms : Nat) : Code Unit := do
  let t ← self
  Prog.act fun k => k.setState t .sleeping
  bermudaThreadQueueRemove .bermudaRunQueue t
  let timer ← createTimer ms .bermudaThreadTimeout t
  Prog.act fun k => k.setTimer t (some timer)
  bermudaThreadYield

/-- The walk of `BermudaThreadGetByName`: `memcmp` over the length of the thread's
name accepts every prefix of the name that is looked for. -/
def getByName (k : Kernel) (name : List Char) : Nat → Option Addr → Option (Option Addr)
  | _,none => some none
  | 0,some _ => none
  | fuel+1,some c =>
    if (k.thread c).name.isPrefixOf name then some (some c) else getByName k name fuel (k.qNext c)

/-- `BermudaThreadGetByName("MAIN")`. -/
def mainThread (k : Kernel) : Option (Option Addr) :=
  getByName k ['M','A','I','N'] addrLimit (k.link .bermudaThreadHead)

/-- `BermudaThreadExit` up to its call of `BermudaThreadYield`. -/
def leave : Code Unit := do
  let t ← self
  match ← Prog.get mainThread with
  | none => Prog.fault
  | some main =>
    if main ≠ some t then
      bermudaThreadQueueRemove .bermudaRunQueue t
      bermudaThreadQueueRemove .bermudaThreadHead t
      bermudaThreadPrioQueueAdd .bermudaKillQueue t

def bermudaThreadExit : Code Unit := do
  leave
  bermudaThreadYield

def bermudaThreadSetPrio (prio : Nat) : Code Int := do
  let t ← self
  let ret ← Prog.get fun k => (k.thread t).prio
  bermudaThreadQueueRemove .bermudaRunQueue t
  Prog.act fun k => k.setPrio t prio
  if prio < bermudaLowestPrio then bermudaThreadPrioQueueAdd .bermudaRunQueue t
  else bermudaThreadExit
  let lost ← Prog.get fun k => decide (k.link .bermudaRunQueue ≠ some k.bermudaCurrentThread)
  if lost then
    Prog.act fun k => k.setState k.bermudaCurrentThread .ready
    bermudaSwitchTask
  return ret

def bermudaThreadWait : Code Unit := do
  let t ← self
  bermudaThreadQueueRemove .bermudaRunQueue t
  Prog.act fun k => k.setState t .waiting
  bermudaSchedulerExec

def bermudaThreadNotify (t : Option Addr) : Code Unit := do
  match t with
  | none => pure ()
  | some t =>
    let state ← Prog.get fun k => (k.thread t).state
    if state = .waiting ∨ state = .sleeping then
      Prog.act fun k => k.setState t .ready
      bermudaThreadPrioQueueAdd .bermudaRunQueue t
  bermudaThreadYield

/-- The timer of a wait, which no time-out of 0 has. -/
def waitTimer (q : Addr) (tmo : Nat) : Code (Option Addr) := do
  if tmo = 0 then return none
  let timer ← createTimer tmo .bermudaEventTmo q
  return some timer

def bermudaEventWait (q : Addr) (tmo : Nat) : Code Int := do
  let tqp ← Prog.get fun k => k.link (.event q)
  let t ← self
  if tqp = signaled then
    Prog.act fun k => ((k.setLink (.event q) none).take q t).setSettled t (some (q,true))
    bermudaThreadYield
    Prog.act fun k => k.setSettled k.bermudaCurrentThread none
    return 0
  bermudaThreadQueueRemove .bermudaRunQueue t
  bermudaThreadPrioQueueAdd (.event q) t
  Prog.act fun k => k.setState t .sleeping
  let timer ← waitTimer q tmo
  Prog.act fun k => (k.setTimer t timer).setWaiting t (some q)
  bermudaSchedulerExec
  let late ← Prog.access (fun k => k.setWaiting k.bermudaCurrentThread none)
    fun k => decide ((k.thread k.bermudaCurrentThread).thTimer = signaled)
  if late then
    Prog.act fun k => k.setTimer k.bermudaCurrentThread none
    return -1
  return 0

def bermudaEventWaitNext (q : Option Addr) (tmo : Nat) : Code Int :=
  match q with
  | none => return -1
  | some q => do
    Prog.act fun k => if k.link (.event q) = signaled then k.setLink (.event q) none else k
    bermudaEventWait q tmo

def bermudaEventSignal (q : Addr) : Code Int := do
  let ret ← bermudaEventSignalRaw (.event q)
  Prog.act fun k => k.setSettled k.bermudaCurrentThread (some (q,false))
  bermudaThreadYield
  Prog.act fun k => k.setSettled k.bermudaCurrentThread none
  return ret

/-- `BermudaEventSignalFromISR`, with the interrupts off as in every handler. -/
def bermudaEventSignalFromISR (q : Addr) (k : Kernel) : Kernel :=
  match k.link (.event q) with
  | none => k.setLink (.event q) signaled
  | some t => if some t = signaled then k else k.setEc t (((k.thread t).ec + 1) % 2^8)

end BermudaOS.Sys.Sched
