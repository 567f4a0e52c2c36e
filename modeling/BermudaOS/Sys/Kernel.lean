import BermudaOS.Lib.Program
import BermudaOS.Sys.VirtTimer

/-! The data of the scheduler: every variable that holds a `THREAD *`, the thread
structures and the timers. `SIGNALED` is the pointer value -1, an address at which
no object can lie. The last six fields are a record for the reader that no code
reads: who was let through an event queue; in its current call, the queue a thread
waits in and the one it took or gave away; the thread that is listed but not set up
yet; and when a thread joined a queue. -/
namespace BermudaOS.Sys.Sched
open VirtTimer

/-- The variables that hold a thread pointer, as `THREAD **` names them. -/
inductive Ref
  | bermudaRunQueue
  | bermudaThreadHead
  | bermudaKillQueue
  | event (queue : Addr)
  | next (t : Addr)
  | qNext (t : Addr)
  deriving DecidableEq,Repr

inductive ThreadState
  | running
  | ready
  | sleeping
  | waiting
  deriving DecidableEq,Repr

/-- The call-backs the kernel gives its timers. -/
inductive Callback
  | bermudaThreadTimeout
  | bermudaEventTmo
  deriving DecidableEq,Repr

structure Thread where
  name : List Char
  queue : Option Ref
  prio : Nat
  thTimer : Option Addr
  state : ThreadState
  ec : Nat

structure Kernel where
  link : Ref → Option Addr
  thread : Addr → Thread
  bermudaCurrentThread : Addr
  timers : Timers Callback
  bermudaSystemTick : Nat
  tickResume : Nat
  /-- The object the heap hands out for the next timer. -/
  heapNext : Addr
  owners : Addr → List Addr
  waiting : Addr → Option (Addr × Bool)
  settled : Addr → Option (Addr × Bool)
  creating : Option Addr
  arrived : Addr → Nat
  clock : Nat

/-- The address `(void *)-1`. -/
def nowhere : Addr := Fin.last _

def signaled : Option Addr := some nowhere

def bermudaLowestPrio : Nat := 255

namespace Kernel

def next (k : Kernel) (t : Addr) : Option Addr := k.link (.next t)

def qNext (k : Kernel) (t : Addr) : Option Addr := k.link (.qNext t)

def setLink (k : Kernel) (r : Ref) (p : Option Addr) : Kernel :=
  {k with link := Function.update k.link r p}

def setThread (k : Kernel) (t : Addr) (f : Thread → Thread) : Kernel :=
  {k with thread := Function.update k.thread t (f (k.thread t))}

def setEc (k : Kernel) (t : Addr) (n : Nat) : Kernel := k.setThread t fun th => {th with ec := n}

def setState (k : Kernel) (t : Addr) (s : ThreadState) : Kernel :=
  k.setThread t fun th => {th with state := s}

def setTimer (k : Kernel) (t : Addr) (p : Option Addr) : Kernel :=
  k.setThread t fun th => {th with thTimer := p}

def setQueue (k : Kernel) (t : Addr) (q : Option Ref) : Kernel :=
  k.setThread t fun th => {th with queue := q}

def setPrio (k : Kernel) (t : Addr) (prio : Nat) : Kernel :=
  k.setThread t fun th => {th with prio := prio}

/-- Whether the walk from a listed timer meets the address. -/
def meetsTimer (k : Kernel) (a : Addr) : Nat → Option Addr → Bool
  | _,none => false
  | 0,some _ => true
  | fuel+1,some timer => timer = a || k.meetsTimer a fuel (k.timers.node timer).next

/-- The heap never hands out a live object, nor one at the last address. -/
def heapOffer (k : Kernel) : Option Addr :=
  if k.heapNext = nowhere ∨ k.meetsTimer k.heapNext addrLimit k.timers.bermudaTimerList then none
  else some k.heapNext

/-- For the record: `t` joins a queue now, and is set up. -/
def stamp (k : Kernel) (t : Addr) : Kernel :=
  {k with creating := none,arrived := Function.update k.arrived t k.clock,clock := k.clock + 1}

/-- For the record: `t` is in the total list. -/
def create (k : Kernel) (t : Addr) : Kernel := {k with creating := some t}

/-- For the record: `t` is let through an event queue. -/
def take (k : Kernel) (q t : Addr) : Kernel :=
  {k with owners := Function.update k.owners q (t::k.owners q)}

/-- For the record: the running thread no longer holds what it was let through to. -/
def release (k : Kernel) : Ref → Kernel
  | .event q =>
    {k with owners := Function.update k.owners q ((k.owners q).erase k.bermudaCurrentThread)}
  | _ => k

/-- For the record: an event passes from the running thread to the woken one. -/
def handOver (k : Kernel) (r : Ref) (t : Addr) : Kernel :=
  match r with
  | .event q => (k.release r).take q t
  | _ => k

/-- For the record: `t` waits in a queue, and whether it was let through before. -/
def setWaiting (k : Kernel) (t : Addr) (q : Option Addr) : Kernel :=
  {k with waiting := Function.update k.waiting t (q.map fun q => (q,decide (t ∈ k.owners q)))}

/-- For the record: `t` took a lock, or gave it away. -/
def setSettled (k : Kernel) (t : Addr) (q : Option (Addr × Bool)) : Kernel :=
  {k with settled := Function.update k.settled t q}

end Kernel

end BermudaOS.Sys.Sched
