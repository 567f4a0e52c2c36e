import BermudaOS.Sys.SchedNotify

/-! The timers of event waits and the threads that wait. A listed time-out is the timer
of one waiter of its queue. A thread leaves the queue as it is signaled or timed out,
and neither can happen to it again before it runs. -/
namespace BermudaOS.Sys.Sched
open VirtTimer Lib.Chains Lib.Program

variable {u : Usage} {k l : Kernel} {t a q : Addr} {c d : Config Kernel Addr Op Int}

/-- Client code, the return of a call, and where a thread gives up the processor. -/
inductive SchedulingPoint (c : Config Kernel Addr Op Int) : Prop
  | client (idle : c.call c.running = none)
  | returns {op : Op} {entry : Kernel} {r : Int} (busy : c.call c.running = some ⟨op,entry,.ret r⟩)
  | switches {op : Op} {entry : Kernel} {next : Code Int}
      (busy : c.call c.running = some ⟨op,entry,.switch next⟩)

/-- The timer is a listed time-out of a wait in the queue. -/
structure Timeout (k : Kernel) (a q : Addr) : Prop where
  listed : ∃ ts, Chain k.timers.next k.timers.bermudaTimerList ts ∧ a ∈ ts
  handle : (k.timers.node a).handle = some .bermudaEventTmo
  arg : (k.timers.node a).arg = q

/-- `t` is in `BermudaEventWait` for the queue, but it is no longer linked there. -/
structure Out (t q : Addr) (k : Kernel) : Prop where
  waits : ∃ b, k.waiting t = some (q,b)
  out : ∀ ws, Waiters k q ws → t ∉ ws

/-- Its wait is over: its `th_timer` is `NULL`, or `SIGNALED` for which the wait
returns -1. -/
structure Over (t q : Addr) (timer : Option Addr) (k : Kernel) : Prop extends Out t q k where
  own : (k.thread t).thTimer = timer
  ended : timer = none ∨ timer = signaled

/-- The timers of waits and the waiters match. -/
structure Matched (k : Kernel) : Prop where
  timer : ∀ a q, Timeout k a q → ∃! t, (k.thread t).thTimer = some a ∧ ∃ ws, Waiters k q ws ∧ t ∈ ws
  waiter : ∀ q ws, Waiters k q ws → ∀ t ∈ ws, (∃ b, k.waiting t = some (q,b)) ∧
    ((k.thread t).thTimer = none ∨ ∃ a, (k.thread t).thTimer = some a ∧ Timeout k a q)
  past : ∀ t q, Out t q k → ∃ timer, Over t q timer k

/-- How one step of `me` changes the waiters of a queue. -/
inductive Turnover (me : Addr) : List Addr → List Addr → Prop
  | keep {ws : List Addr} : Turnover me ws ws
  | join {ws us : List Addr} (members : ∀ t, t ∈ us ↔ t = me ∨ t ∈ ws) : Turnover me ws us
  | signaled {t : Addr} {us : List Addr} : Turnover me (t::us) us
  | timedOut {t : Addr} {ws : List Addr} (member : t ∈ ws) : Turnover me ws (ws.erase t)

/-- `d` comes after `c`, and `t` has not run in between. -/
def Meanwhile (u : Usage) (t : Addr) : Config Kernel Addr Op Int → Config Kernel Addr Op Int → Prop :=
  Relation.ReflTransGen fun c d => c.running ≠ t ∧ Step (scheduler u) c d

theorem Sound.matched {L : Lists} {R : Rest} (here : At u L R l) (sound : Sound u L R)
    (links : l.link = k.link) (timers : l.timers = k.timers) (waiting : l.waiting = k.waiting)
    (thTimer : ∀ t, (l.thread t).thTimer = (k.thread t).thTimer) : Matched k := by
  obtain ⟨ts,timed⟩ := sound.timed
  have own (t : Addr) : (k.thread t).thTimer = R.thTimer t :=
    (thTimer t).symm.trans (congrFun (congrArg Rest.thTimer here.rest) t)
  have same : R.timers = k.timers := (congrArg Rest.timers here.rest).symm.trans timers
  have waits (t : Addr) : k.waiting t = R.waiting t :=
    congrFun (waiting.symm.trans (congrArg Rest.waiting here.rest)) t
  have queue (q : Addr) : Waiters k q (L.queue (.event q)) := by
    have waiters := here.waiters q
    unfold Waiters Queued Kernel.next at waiters ⊢
    rwa [links] at waiters
  have chain := timed.chain
  rw [same] at chain
  refine ⟨?_,?_,?_⟩
  · rintro a q ⟨⟨us,listed,member⟩,handle,rfl⟩
    obtain rfl := chain_unique chain listed
    rw [← same] at handle ⊢
    obtain ⟨t,inside,timer⟩ := timed.event a member handle
    refine ⟨t,⟨(own t).trans timer,_,queue _,inside⟩,?_⟩
    rintro s ⟨claim,ws,waiters,also⟩
    rw [Queued.unique waiters (queue _)] at also
    exact timed.own _ _ s t a also inside ((own s).symm.trans claim) timer
  · intro q ws waiters t inside
    rw [Queued.unique waiters (queue q)] at inside
    rw [own,waits]
    refine ⟨sound.locked.waits q t inside,?_⟩
    cases timer : R.thTimer t with
    | none => exact .inl rfl
    | some a =>
      obtain ⟨listed,handle,arg⟩ := timed.waiter q t inside a timer
      rw [same] at handle arg
      exact .inr ⟨a,rfl,⟨ts,chain,listed⟩,handle,arg⟩
  · rintro t q ⟨⟨b,turn⟩,out⟩
    have ended := sound.locked.ended t q b ((waits t).symm.trans turn) (out _ (queue q))
    exact ⟨_,⟨⟨b,turn⟩,out⟩,rfl,(own t).symm ▸ ended⟩

theorem stackSave_timers (k : Kernel) : (bermudaStackSave k).timers = k.timers ∧
    (bermudaStackSave k).waiting = k.waiting ∧
    ∀ t, ((bermudaStackSave k).thread t).thTimer = (k.thread t).thTimer := by
  unfold bermudaStackSave
  split
  · next t _ =>
    have rest := Kernel.rest_setState {k with bermudaCurrentThread := t} t .running
    exact ⟨congrArg Rest.timers rest,congrArg Rest.waiting rest,
      fun s => congrFun (congrArg Rest.thTimer rest) s⟩
  · exact ⟨rfl,rfl,fun _ => rfl⟩

/-- At a scheduling point nothing is half done. -/
theorem point_matched (gentle : Gentle u) (reach : Reachable (scheduler u) (booted u) c)
    (point : SchedulingPoint c) : Matched c.state := by
  have good := kernel_good gentle reach
  cases point with
  | client idle =>
    obtain ⟨L,R,client⟩ := good.idle idle
    exact client.sound.matched client.here rfl rfl rfl fun _ => rfl
  | returns busy =>
    obtain ⟨L,R,client⟩ := (good.busy _ busy).1
    exact client.sound.matched client.here rfl rfl rfl fun _ => rfl
  | switches busy =>
    obtain ⟨_,⟨L,R,_,runner,_⟩,_⟩ := (good.busy _ busy).2 _ .refl
    obtain ⟨timers,waiting,thTimer⟩ := stackSave_timers c.state
    exact runner.sound.matched runner.here (congrArg Links.link (stackSave_links _)) timers waiting thTimer

theorem Moved.turnover {bounded : Prop} {me : Addr} {x y : Links} {ws us : List Addr}
    (moved : Moved bounded me x y q ws us) : Turnover me ws us := by
  cases moved with
  | join place =>
    apply Turnover.join
    intro t
    rw [place,List.mem_orderedInsert]
  | wake => exact .signaled
  | timeout member left => exact left ▸ .timedOut member
  | _ => exact .keep

theorem Turnover.stays {me : Addr} {ws us : List Addr} (turnover : Turnover me ws us) (other : me ≠ t)
    (out : t ∉ ws) : t ∉ us := by
  cases turnover with
  | keep => exact out
  | join members =>
    intro inside
    rcases (members t).mp inside with same | before
    · exact other same.symm
    · exact out before
  | signaled => exact fun inside => out (List.mem_cons_of_mem _ inside)
  | timedOut => exact fun inside => out (List.mem_of_mem_erase inside)

theorem step_turnover (gentle : Gentle u) (reach : Reachable (scheduler u) (booted u) c)
    (step : Step (scheduler u) c d) (q : Addr) :
    ∃ ws us, Waiters c.state q ws ∧ Waiters d.state q us ∧ Turnover c.running ws us := by
  have good := kernel_good gentle reach
  obtain ⟨L,R,here⟩ := good_inv (kernel_verified gentle) good
  rcases good_step good step with same | irq | ⟨_,_,L,M,R,Q,stepped⟩
  · rw [same]
    exact ⟨_,_,here.waiters q,here.waiters q,.keep⟩
  · exact ⟨_,_,here.waiters q,(irq_at here irq).1.waiters q,.keep⟩
  · exact ⟨_,_,stepped.before.waiters q,stepped.after.waiters q,(stepped.moved q).turnover⟩

theorem step_record (gentle : Gentle u) (reach : Reachable (scheduler u) (booted u) c)
    (step : Step (scheduler u) c d) (other : c.running ≠ t) :
    d.state.waiting t = c.state.waiting t ∧
      ((c.state.thread t).thTimer = none ∨ (c.state.thread t).thTimer = signaled →
        (d.state.thread t).thTimer = (c.state.thread t).thTimer) := by
  have good := kernel_good gentle reach
  obtain ⟨L,R,here⟩ := good_inv (kernel_verified gentle) good
  rcases good_step good step with same | irq | ⟨_,_,L,M,R,Q,stepped⟩
  · rw [same]
    exact ⟨rfl,fun _ => rfl⟩
  · have rest : d.state.rest = c.state.rest := (irq_at here irq).1.rest.trans here.rest.symm
    exact ⟨congrFun (congrArg Rest.waiting rest) t,fun _ => congrFun (congrArg Rest.thTimer rest) t⟩
  · have waiting := stepped.waiting t other.symm
    have ended := stepped.ended t other.symm
    rw [← stepped.before.rest,← stepped.after.rest] at waiting ended
    exact ⟨waiting,ended⟩

theorem step_out (gentle : Gentle u) (reach : Reachable (scheduler u) (booted u) c)
    (step : Step (scheduler u) c d) (other : c.running ≠ t) (out : Out t q c.state) : Out t q d.state := by
  obtain ⟨⟨b,waits⟩,absent⟩ := out
  obtain ⟨ws,us,before,after,turnover⟩ := step_turnover gentle reach step q
  refine ⟨⟨b,(step_record gentle reach step other).1.trans waits⟩,fun vs waiters => ?_⟩
  rw [Queued.unique waiters after]
  exact turnover.stays other (absent ws before)

theorem step_over (gentle : Gentle u) (reach : Reachable (scheduler u) (booted u) c)
    (step : Step (scheduler u) c d) (other : c.running ≠ t) {timer : Option Addr}
    (past : Over t q timer c.state) : Over t q timer d.state := by
  obtain ⟨out,own,ended⟩ := past
  refine ⟨step_out gentle reach step other out,?_,ended⟩
  rw [← own] at ended
  exact ((step_record gentle reach step other).2 ended).trans own

theorem meanwhile_keeps (P : Kernel → Prop)
    (keeps : ∀ c d, Reachable (scheduler u) (booted u) c → Step (scheduler u) c d → c.running ≠ t →
      P c.state → P d.state)
    (reach : Reachable (scheduler u) (booted u) c) (holds : P c.state) (later : Meanwhile u t c d) :
    P d.state := by
  have both : Reachable (scheduler u) (booted u) d ∧ P d.state := by
    induction later with
    | refl => exact ⟨reach,holds⟩
    | tail _ step ih => exact ⟨.step ih.1 step.2,keeps _ _ ih.1 step.2 step.1 ih.2⟩
  exact both.2

/-- The waits and their timers, in a state of a run: they match at scheduling points,
a thread leaves a queue because it is signaled or timed out, and until it runs again
it is not linked there and neither happens to it a second time. -/
structure WaitOnce (u : Usage) (c : Config Kernel Addr Op Int) : Prop where
  matched : SchedulingPoint c → Matched c.state
  turnover : ∀ d q, Step (scheduler u) c d →
    ∃ ws us, Waiters c.state q ws ∧ Waiters d.state q us ∧ Turnover c.running ws us
  out : ∀ t q d, Out t q c.state → Meanwhile u t c d → Out t q d.state
  past : ∀ t q timer d, Over t q timer c.state → Meanwhile u t c d → Over t q timer d.state

theorem waits_once (gentle : Gentle u) (reach : Reachable (scheduler u) (booted u) c) : WaitOnce u c := by
  refine ⟨point_matched gentle reach,fun d q step => step_turnover gentle reach step q,?_,?_⟩
  · intro t q d out later
    exact meanwhile_keeps _ (fun c d reach step other => step_out gentle reach step other) reach out later
  · intro t q timer d past later
    exact meanwhile_keeps _ (fun c d reach step other => step_over gentle reach step other) reach past later

/-- A waits for an event with a time-out of 5 ticks, and MAIN runs. -/
def timeoutConfig : Config Kernel Addr Op Int :=
  perform plainUsage [.call (.bermudaThreadCreate 0x200 ['M','A','I','N'] 150) 40,
    .call (.bermudaThreadCreate 0x300 ['A'] 100) 40,.call .bermudaThreadYield 80,
    .call (.bermudaEventWait 0x20 5) 100] (bootConfig plainUsage [] 0x500)

theorem waits_once_timeout : WaitOnce plainUsage timeoutConfig ∧ SchedulingPoint timeoutConfig ∧
    (timeoutConfig.state.thread 0x300).thTimer = some 0x500 := by
  have start : booted plainUsage (bootConfig plainUsage [] 0x500) :=
    bootConfig_booted (by decide) fun q => by simp [plainUsage]
  have reach : Reachable (scheduler plainUsage) (booted plainUsage) timeoutConfig :=
    perform_reachable (.init start) (by decide +kernel)
  have idle : (timeoutConfig.call timeoutConfig.running).isNone = true := by decide +kernel
  exact ⟨waits_once plainUsage_gentle reach,.client (Option.isNone_iff_eq_none.mp idle),by decide +kernel⟩

end BermudaOS.Sys.Sched
