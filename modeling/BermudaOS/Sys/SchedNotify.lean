import BermudaOS.Sys.SchedLocks

/-! Each thread is in one queue at most. A timer that wakes a thread is the one of the
wait the thread is in, so that a thread which waits for a notification has none. This
ends when a sleeping thread is notified: `BermudaThreadNotify` leaves it in its event
queue, and its timer in the list. -/
namespace BermudaOS.Sys.Sched
open VirtTimer Lib.Chains Lib.Program

variable {u : Usage} {k : Kernel} {t a q : Addr} {c : Config Kernel Addr Op Int}

structure LinkedOnce (k : Kernel) : Prop where
  acyclic : ∀ r, IsQueue r → ∃ ws, Queued k r ws ∧ ws.Nodup
  once : ∀ r s ws us t, IsQueue r → IsQueue s → Queued k r ws → Queued k s us → t ∈ ws → t ∈ us → r = s

/-- The call-back of a listed timer would put the thread into the run queue. -/
def Wakes (k : Kernel) (a t : Addr) : Prop :=
  (∃ ts, Chain k.timers.next k.timers.bermudaTimerList ts ∧ a ∈ ts) ∧
    ((k.timers.node a).handle = some .bermudaThreadTimeout ∧ (k.timers.node a).arg = t ∨
      (k.timers.node a).handle = some .bermudaEventTmo ∧ (k.thread t).thTimer = some a ∧
        ∃ ws, Waiters k (k.timers.node a).arg ws ∧ t ∈ ws)

/-- Where the threads are in a state of a run. Between calls, a timer only wakes a thread
that sleeps, and that has the timer as its own. -/
structure Unique (c : Config Kernel Addr Op Int) : Prop where
  linked : LinkedOnce c.state
  timers : c.call c.running = none → ∀ a t, Wakes c.state a t →
    (c.state.thread t).state = .sleeping ∧ (c.state.thread t).thTimer = some a

theorem At.linkedOnce {L : Lists} {R : Rest} (here : At u L R k) : LinkedOnce k := by
  refine ⟨fun r queue => ⟨_,here.queued queue,here.core.nodup queue⟩,?_⟩
  intro r s ws us t queue other listed also left right
  rw [← Queued.unique (here.queued queue) listed] at left
  rw [← Queued.unique (here.queued other) also] at right
  exact here.core.alone r s t left right

theorem Wakes.sleeping {L : Lists} {R : Rest} (wakes : Wakes k a t) (here : At u L R k)
    (sound : Sound u L R) : (k.thread t).state = .sleeping ∧ (k.thread t).thTimer = some a := by
  have timers : R.timers = k.timers := by rw [← here.rest]; rfl
  have state : R.state t = (k.thread t).state := by rw [← here.rest]; rfl
  have thTimer : R.thTimer t = (k.thread t).thTimer := by rw [← here.rest]; rfl
  obtain ⟨⟨ts,chain,listed⟩,wakes⟩ := wakes
  have timed := sound.timedBy (show Chain R.timers.next R.timers.bermudaTimerList ts from timers ▸ chain)
  rw [← state,← thTimer]
  rcases wakes with ⟨handle,arg⟩ | ⟨_,own,ws,waits,member⟩
  · rw [← timers] at handle arg
    exact (timed.sleeper a listed handle t arg).2.2
  · rw [← Queued.unique (here.waiters _) waits] at member
    exact ⟨sound.placed.asleep _ t member,thTimer.trans own⟩

/-- As long as no sleeping thread is notified, in every state of every run. -/
theorem unique_placement (gentle : Gentle u) (reach : Reachable (scheduler u) (booted u) c) :
    Unique c := by
  have good := kernel_good gentle reach
  obtain ⟨L,R,here⟩ := good_inv (kernel_verified gentle) good
  refine ⟨here.linkedOnce,fun idle a t wakes => ?_⟩
  obtain ⟨L,R,client⟩ := good.idle idle
  exact wakes.sleeping client.here client.sound

/-- A waits for MAIN and MAIN for an event, with a time-out; the idle thread notifies A. -/
def waitConfig : Config Kernel Addr Op Int :=
  perform plainUsage [.call (.bermudaThreadCreate 0x200 ['M','A','I','N'] 150) 40,
    .call (.bermudaThreadCreate 0x300 ['A'] 100) 40,.call .bermudaThreadYield 80,
    .call .bermudaThreadWait 100,.call (.bermudaEventWait 0x20 5) 100,
    .call (.bermudaThreadNotify (some 0x300)) 100] (bootConfig plainUsage [] 0x500)

theorem unique_placement_wait : Unique waitConfig ∧ waitConfig.running = 0x300 := by
  have start : booted plainUsage (bootConfig plainUsage [] 0x500) :=
    bootConfig_booted (by decide) fun q => by simp [plainUsage]
  have reach : Reachable (scheduler plainUsage) (booted plainUsage) waitConfig :=
    perform_reachable (.init start) (by decide +kernel)
  exact ⟨unique_placement plainUsage_gentle reach,by decide +kernel⟩

/-- Any thread may be notified, as its documentation says. -/
def freeUsage : Usage where
  idle := 0x100
  lock _ := False
  raised _ _ := False
  notifies _ _ := True
  apart _ _ _ := id

instance : DecidablePred freeUsage.lock := fun _ => isFalse id

instance {q : Addr} {k : Kernel} : Decidable (freeUsage.raised q k) := isFalse id

instance {t : Addr} {k : Kernel} : Decidable (freeUsage.notifies t k) := isTrue trivial

/-- A waits for an event, and MAIN notifies it. -/
def notifyConfig : Config Kernel Addr Op Int :=
  perform freeUsage [.call (.bermudaThreadCreate 0x200 ['M','A','I','N'] 150) 40,
    .call (.bermudaThreadCreate 0x300 ['A'] 100) 40,.call .bermudaThreadYield 80,
    .call (.bermudaEventWait 0x20 0) 100,.call (.bermudaThreadNotify (some 0x300)) 100]
    (bootConfig freeUsage [] 0x500)

theorem notify_doubles : Reachable (scheduler freeUsage) (booted freeUsage) notifyConfig ∧
    ¬Unique notifyConfig := by
  have start : booted freeUsage (bootConfig freeUsage [] 0x500) :=
    bootConfig_booted (by decide) fun q => by simp [freeUsage]
  refine ⟨perform_reachable (.init start) (by decide +kernel),fun unique => ?_⟩
  have listed {r : Ref} (busy : notifyConfig.state.link r ≠ signaled)
      (found : collect notifyConfig.state.next 3 (notifyConfig.state.link r) = some [0x300,0x200,0x100]) :
      Queued notifyConfig.state r [0x300,0x200,0x100] := .inr ⟨busy,collect_chain found⟩
  have same := unique.linked.once .bermudaRunQueue (.event 0x20) _ _ 0x300 trivial trivial
    (listed (by decide +kernel) (by decide +kernel)) (listed (by decide +kernel) (by decide +kernel))
    (by simp) (by simp)
  cases same

end BermudaOS.Sys.Sched
