import BermudaOS.Sys.SchedBoot

/-! The scheduler runs the most important thread that is ready. -/
namespace BermudaOS.Sys.Sched
open VirtTimer Lib.Chains Lib.Program

variable {u : Usage} {k : Kernel} {t : Addr} {c : Config Kernel Addr Op Int}

/-- The run queue holds each of the threads `ready` once, by their priorities, and `t`,
which runs, is the first of them. -/
structure HighestFirst (k : Kernel) (t : Addr) (ready : List Addr) : Prop where
  queue : Chain k.next (k.link .bermudaRunQueue) ready
  nodup : ready.Nodup
  sorted : ready.Pairwise fun t s => (k.thread t).prio ≤ (k.thread s).prio
  current : k.bermudaCurrentThread = t
  head : k.link .bermudaRunQueue = some t
  first : t ∈ ready
  least : ∀ s ∈ ready, (k.thread t).prio ≤ (k.thread s).prio

theorem Top.highestFirst (top : Top u t k) : ∃ ready, HighestFirst k t ready := by
  obtain ⟨L,R,rest,⟨here,_,_,current⟩,list⟩ := top
  have core := here.core
  have queue : IsQueue .bermudaRunQueue := trivial
  have sorted : (L.queue .bermudaRunQueue).Pairwise fun t s => (k.thread t).prio ≤ (k.thread s).prio := by
    refine (core.sorted .bermudaRunQueue).imp ?_
    rintro a b (less | ⟨same,_⟩)
    · exact less.le
    · exact same.le
  refine ⟨t::rest,⟨?_,?_,list ▸ sorted,(congrArg Rest.current here.rest).trans current,
    core.first queue list,by simp,?_⟩⟩
  · rw [← list]
    exact core.chain _ queue (core.unsignaled queue (by simp [list]))
  · rw [← list]
    exact core.nodup queue
  · rw [list] at sorted
    exact List.forall_mem_cons.mpr ⟨le_rfl,fun s inside => List.rel_of_pairwise_cons sorted inside⟩

/-- A call that goes through the scheduler returns to the most important ready thread. -/
theorem returns_highestFirst (gentle : Gentle u) (reach : Reachable (scheduler u) (booted u) c)
    {op : Op} {entry : Kernel} {r : Int} (busy : c.call c.running = some ⟨op,entry,.ret r⟩)
    (scheduled : Scheduled op) : ∃ ready, HighestFirst c.state c.running ready :=
  Top.highestFirst (((kernel_good gentle reach).busy _ busy).2.1 scheduled)

/-- No locks, one event queue that interrupts signal, and waiting threads are notified. -/
def plainUsage : Usage where
  idle := 0x100
  lock _ := False
  raised q _ := q = 0x20
  notifies t k := (k.thread t).state = .waiting
  apart _ _ _ := id

instance : DecidablePred plainUsage.lock := fun _ => isFalse id

instance {q : Addr} {k : Kernel} : Decidable (plainUsage.raised q k) :=
  inferInstanceAs (Decidable (q = 0x20))

instance {t : Addr} {k : Kernel} : Decidable (plainUsage.notifies t k) :=
  inferInstanceAs (Decidable (_ = _))

theorem plainUsage_gentle : Gentle plainUsage := by
  rintro t k (waits : (k.thread t).state = .waiting)
  simp [waits]

/-- Of two threads the more important one sleeps; the other is about to return. -/
def sleeperConfig : Config Kernel Addr Op Int :=
  perform plainUsage [.call (.bermudaThreadCreate 0x200 ['M','A','I','N'] 150) 40,
    .call (.bermudaThreadCreate 0x300 ['A'] 100) 40,.call .bermudaThreadYield 80,
    .call (.bermudaThreadSleep 10) 100,.call .bermudaThreadYield 21] (bootConfig plainUsage [] 0x500)

theorem returns_highestFirst_sleeper :
    ∃ ready, HighestFirst sleeperConfig.state sleeperConfig.running ready := by
  have start : booted plainUsage (bootConfig plainUsage [] 0x500) :=
    bootConfig_booted (by decide) fun q => by simp [plainUsage]
  have reach : Reachable (scheduler plainUsage) (booted plainUsage) sleeperConfig :=
    perform_reachable (.init start) (by decide +kernel)
  obtain ⟨entry,busy⟩ := returning_call
    (show returning sleeperConfig = some (.bermudaThreadYield,0) by decide +kernel)
  exact returns_highestFirst plainUsage_gentle reach busy trivial

end BermudaOS.Sys.Sched
