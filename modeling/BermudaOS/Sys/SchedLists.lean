import Mathlib.Data.List.Sort
import BermudaOS.Lib.Chains
import BermudaOS.Sys.Sched

/-! The scheduler's state as lists. The links and counters of the kernel hold one
list for each queue and one of all threads; `Core` says how, at every point of
every critical section, and `Moved` what one action may do to an event queue. -/
namespace BermudaOS.Sys.Sched
open VirtTimer Lib.Chains Lib.Program

/-- What the queues are made of. -/
structure Links where
  link : Ref → Option Addr
  prio : Addr → Nat
  ec : Addr → Nat
  queue : Addr → Option Ref
  owners : Addr → List Addr
  arrived : Addr → Nat
  clock : Nat

/-- What the queue functions leave alone. -/
structure Rest where
  current : Addr
  timers : Timers Callback
  tickResume : Nat
  waiting : Addr → Option (Addr × Bool)
  settled : Addr → Option (Addr × Bool)
  creating : Option Addr
  owners : Addr → List Addr
  name : Addr → List Char
  thTimer : Addr → Option Addr
  state : Addr → ThreadState

namespace Links

def next (x : Links) (t : Addr) : Option Addr := x.link (.next t)

def qNext (x : Links) (t : Addr) : Option Addr := x.link (.qNext t)

end Links

namespace Kernel

def links (k : Kernel) : Links where
  link := k.link
  prio t := (k.thread t).prio
  ec t := (k.thread t).ec
  queue t := (k.thread t).queue
  owners := k.owners
  arrived := k.arrived
  clock := k.clock

def rest (k : Kernel) : Rest where
  current := k.bermudaCurrentThread
  timers := k.timers
  tickResume := k.tickResume
  waiting := k.waiting
  settled := k.settled
  creating := k.creating
  owners := k.owners
  name t := (k.thread t).name
  thTimer t := (k.thread t).thTimer
  state t := (k.thread t).state

variable (k : Kernel) (t : Addr)

theorem field_setThread {β : Type} (read : Thread → β) (f : Thread → Thread) :
    (fun u => read ((k.setThread t f).thread u)) =
      Function.update (fun u => read (k.thread u)) t (read (f (k.thread t))) := by
  funext u
  by_cases same : u = t
  · subst same
    simp [setThread]
  · simp [setThread,same]

theorem links_setThread {f : Thread → Thread} (prio : (f (k.thread t)).prio = (k.thread t).prio)
    (ec : (f (k.thread t)).ec = (k.thread t).ec)
    (queue : (f (k.thread t)).queue = (k.thread t).queue) : (k.setThread t f).links = k.links := by
  simp only [links,field_setThread,prio,ec,queue,Function.update_eq_self]
  rfl

theorem rest_setThread {f : Thread → Thread} (name : (f (k.thread t)).name = (k.thread t).name)
    (timer : (f (k.thread t)).thTimer = (k.thread t).thTimer)
    (state : (f (k.thread t)).state = (k.thread t).state) : (k.setThread t f).rest = k.rest := by
  simp only [rest,field_setThread,name,timer,state,Function.update_eq_self]
  rfl

@[simp] theorem links_setState (s : ThreadState) : (k.setState t s).links = k.links :=
  links_setThread k t rfl rfl rfl

@[simp] theorem links_setTimer (p : Option Addr) : (k.setTimer t p).links = k.links :=
  links_setThread k t rfl rfl rfl

@[simp] theorem links_setWaiting (q : Option Addr) : (k.setWaiting t q).links = k.links := rfl

@[simp] theorem links_setSettled (q : Option (Addr × Bool)) : (k.setSettled t q).links = k.links := rfl

@[simp] theorem links_timers (v : Timers Callback) : ({k with timers := v}).links = k.links := rfl

@[simp] theorem links_setLink (r : Ref) (p : Option Addr) :
    (k.setLink r p).links = {k.links with link := Function.update k.link r p} := rfl

@[simp] theorem links_setEc (n : Nat) :
    (k.setEc t n).links = {k.links with ec := Function.update k.links.ec t n} := by
  simp only [links,setEc,field_setThread,Function.update_eq_self]
  rfl

@[simp] theorem links_setQueue (q : Option Ref) :
    (k.setQueue t q).links = {k.links with queue := Function.update k.links.queue t q} := by
  simp only [links,setQueue,field_setThread,Function.update_eq_self]
  rfl

@[simp] theorem links_setPrio (n : Nat) :
    (k.setPrio t n).links = {k.links with prio := Function.update k.links.prio t n} := by
  simp only [links,setPrio,field_setThread,Function.update_eq_self]
  rfl

@[simp] theorem links_stamp :
    (k.stamp t).links =
      {k.links with arrived := Function.update k.arrived t k.clock,clock := k.clock + 1} := rfl

@[simp] theorem links_handOver (q : Addr) :
    (k.handOver (.event q) t).links = {k.links with
      owners := Function.update k.owners q (t::(k.owners q).erase k.bermudaCurrentThread)} := by
  simp [handOver,release,take,links]

@[simp] theorem rest_setLink (r : Ref) (p : Option Addr) : (k.setLink r p).rest = k.rest := rfl

@[simp] theorem rest_setEc (n : Nat) : (k.setEc t n).rest = k.rest := rest_setThread k t rfl rfl rfl

@[simp] theorem rest_setQueue (q : Option Ref) : (k.setQueue t q).rest = k.rest :=
  rest_setThread k t rfl rfl rfl

@[simp] theorem rest_setPrio (n : Nat) : (k.setPrio t n).rest = k.rest :=
  rest_setThread k t rfl rfl rfl

@[simp] theorem rest_stamp : (k.stamp t).rest = {k.rest with creating := none} := rfl

@[simp] theorem links_create : (k.create t).links = k.links := rfl

@[simp] theorem rest_create : (k.create t).rest = {k.rest with creating := some t} := rfl

@[simp] theorem rest_take (q : Addr) :
    (k.take q t).rest = {k.rest with owners := Function.update k.owners q (t::k.owners q)} := rfl

@[simp] theorem rest_release (q : Addr) :
    (k.release (.event q)).rest =
      {k.rest with owners := Function.update k.owners q ((k.owners q).erase k.bermudaCurrentThread)} :=
  rfl

@[simp] theorem rest_handOver (q : Addr) :
    (k.handOver (.event q) t).rest = {k.rest with
      owners := Function.update k.owners q (t::(k.owners q).erase k.bermudaCurrentThread)} := by
  simp [handOver,release,take,rest]

@[simp] theorem rest_setWaiting (q : Option Addr) :
    (k.setWaiting t q).rest = {k.rest with
      waiting := Function.update k.waiting t (q.map fun q => (q,decide (t ∈ k.owners q)))} := rfl

@[simp] theorem rest_setSettled (q : Option (Addr × Bool)) :
    (k.setSettled t q).rest = {k.rest with settled := Function.update k.settled t q} := rfl

@[simp] theorem rest_setState (s : ThreadState) :
    (k.setState t s).rest = {k.rest with state := Function.update k.rest.state t s} := by
  simp only [rest,setState,field_setThread,Function.update_eq_self]
  rfl

@[simp] theorem rest_setTimer (p : Option Addr) :
    (k.setTimer t p).rest = {k.rest with thTimer := Function.update k.rest.thTimer t p} := by
  simp only [rest,setTimer,field_setThread,Function.update_eq_self]
  rfl

end Kernel

/-- `newborn` is a thread in the total list whose counter is not yet initialised. -/
structure Lists where
  queue : Ref → List Addr
  all : List Addr
  newborn : Option Addr

/-- The queues that `next` links. The kill queue is linked so too, but no thread
here exits. -/
def IsQueue : Ref → Prop
  | .bermudaRunQueue => True
  | .event _ => True
  | _ => False

def Floating (L : Lists) (t : Addr) : Prop := ∀ r, t ∉ L.queue r

def Lists.set (L : Lists) (r : Ref) (ts : List Addr) : Lists :=
  {L with queue := Function.update L.queue r ts}

/-- Every thread but `t` is where it was. -/
def Others (L M : Lists) (t : Addr) : Prop := ∀ s, s ≠ t → ∀ r, s ∈ M.queue r ↔ s ∈ L.queue r

section Others

variable {L M N : Lists} {t : Addr} {r : Ref}

theorem Others.refl (L : Lists) (t : Addr) : Others L L t := fun _ _ _ => Iff.rfl

theorem Others.trans (first : Others L M t) (second : Others M N t) : Others L N t :=
  fun s other r => (second s other r).trans (first s other r)

theorem others_insert {before after : List Addr} (list : L.queue r = before ++ after) :
    Others L (L.set r (before ++ t::after)) t := by
  intro s other p
  by_cases same : p = r
  · subst same
    simp [Lists.set,list,other]
  · simp [Lists.set,same]

theorem others_remove {before after : List Addr} (list : L.queue r = before ++ t::after) :
    Others L (L.set r (before ++ after)) t := by
  intro s other p
  by_cases same : p = r
  · subst same
    simp [Lists.set,list,other]
  · simp [Lists.set,same]

theorem mem_insert {before after : List Addr} {p : Ref} (floating : Floating L t) :
    t ∈ (L.set r (before ++ t::after)).queue p ↔ p = r := by
  by_cases same : p = r
  · subst same
    simp [Lists.set]
  · simp [Lists.set,same,floating p]

theorem Floating.others {s : Addr} (floating : Floating L s) (others : Others L M t) (other : s ≠ t) :
    Floating M s := fun r inside => floating r ((others s other r).mp inside)

end Others

/-- Threads in no queue have no successor, but for `t`. -/
def Loose (x : Links) (L : Lists) (t : Option Addr) : Prop :=
  ∀ s ∈ L.all, Floating L s → some s ≠ t → x.next s = none

/-- `t` is served before `u`: it is more important, or as important and longer there. -/
def Before (x : Links) (t u : Addr) : Prop :=
  x.prio t < x.prio u ∨ x.prio t = x.prio u ∧ x.arrived t < x.arrived u

/-- The links hold the lists. Only the head of an event queue has events pending on
it; an event queue used as a lock is signaled exactly while it has no owner. -/
structure Core (lock : Addr → Prop) (x : Links) (L : Lists) : Prop where
  chain : ∀ r, IsQueue r → x.link r ≠ signaled → Chain x.next (x.link r) (L.queue r)
  word : ∀ r, IsQueue r → x.link r = signaled → L.queue r = []
  runWord : x.link .bermudaRunQueue ≠ signaled
  only : ∀ r, ¬IsQueue r → L.queue r = []
  all : Chain x.qNext (x.link .bermudaThreadHead) L.all
  kill : x.link .bermudaKillQueue = none
  real : nowhere ∉ L.all
  known : ∀ r, ∀ t ∈ L.queue r, t ∈ L.all
  alone : ∀ r s t, t ∈ L.queue r → t ∈ L.queue s → r = s
  sorted : ∀ r, (L.queue r).Pairwise (Before x)
  stamped : ∀ r, ∀ t ∈ L.queue r, x.arrived t < x.clock
  queued : ∀ r, ∀ t ∈ L.queue r, x.queue t = some r
  counts : ∀ t ∈ L.all, L.newborn ≠ some t → x.ec t ≠ 0 → ∃ q rest, L.queue (.event q) = t::rest
  small : ∀ r, ∀ t ∈ L.queue r, x.ec t < 2^8
  infant : ∀ t, L.newborn = some t → Floating L t
  locks : ∀ q, lock q → (x.link (.event q) = signaled ↔ x.owners q = []) ∧
    (x.owners q).length ≤ 1
  still : ∀ q, lock q → ∀ t ∈ L.queue (.event q), x.ec t = 0

/-- The events pending on a queue with waiters. -/
def pending (x : Links) (ws : List Addr) : Nat := (ws.head?.map x.ec).getD 0

/-- Nothing happened to the event queue, in which these threads wait. -/
structure Still (x y : Links) (q : Addr) (ws : List Addr) : Prop where
  word : y.link (.event q) = x.link (.event q)
  count : pending y ws = pending x ws

/-- What becomes of the pending events when a thread leaves an event queue. -/
def Carried (x y : Links) (ws us : List Addr) (q : Addr) : Prop :=
  (us ≠ [] → pending y us = pending x ws) ∧
    (us = [] → y.link (.event q) = if pending x ws = 0 then none else signaled)

/-- What one action of thread `me` does to the event queue `q`. The count of pending
events is exact if no interrupt makes it wrap. -/
inductive Moved (bounded : Prop) (me : Addr) (x y : Links) (q : Addr) : List Addr → List Addr → Prop
  | keep {ws : List Addr} (still : Still x y q ws) (owners : y.owners q = x.owners q) :
      Moved bounded me x y q ws ws
  | deliver {ws : List Addr} (word : y.link (.event q) = x.link (.event q))
      (count : bounded → pending y ws + 1 = pending x ws) (owners : y.owners q = x.owners q) :
      Moved bounded me x y q ws ws
  | join {ws us : List Addr}
      (place : us = ws.orderedInsert (fun t u => x.prio t < x.prio u) me)
      (word : y.link (.event q) ≠ signaled)
      (count : pending y us = pending x ws + if x.link (.event q) = signaled then 1 else 0)
      (owners : y.owners q = x.owners q) : Moved bounded me x y q ws us
  | wake {us : List Addr} {t : Addr} (carried : Carried x y (t::us) us q)
      (owners : y.owners q = t::(x.owners q).erase me) : Moved bounded me x y q (t::us) us
  | timeout {ws us : List Addr} {t : Addr} (member : t ∈ ws) (left : us = ws.erase t)
      (carried : Carried x y ws us q) (owners : y.owners q = x.owners q) : Moved bounded me x y q ws us
  | take (signal : x.link (.event q) = signaled) (word : y.link (.event q) = none)
      (owners : y.owners q = me::x.owners q) : Moved bounded me x y q [] []
  | reset (signal : x.link (.event q) = signaled) (word : y.link (.event q) = none)
      (owners : y.owners q = x.owners q) : Moved bounded me x y q [] []
  | post (word : y.link (.event q) = signaled) (owners : y.owners q = (x.owners q).erase me) :
      Moved bounded me x y q [] []

end BermudaOS.Sys.Sched
