import BermudaOS.Sys.SchedVerified

/-! The start of the scheduler. `BermudaSchedulerInit` creates the idle thread in a
kernel whose variables are zero; every state of every run from there keeps the
contract of the kernel. -/
namespace BermudaOS.Sys.Sched
open VirtTimer VirtTimer.Timers Lib.Chains Lib.Program

variable {u : Usage} {k : Kernel} {t : Addr} {r : Ref}

/-- The kernel before `BermudaSchedulerInit`. Event queues are empty or signaled; a
lock is signaled. -/
structure Blank (u : Usage) (k : Kernel) : Prop where
  links : k.link .bermudaRunQueue = none ∧ k.link .bermudaThreadHead = none ∧
    k.link .bermudaKillQueue = none
  events : ∀ q, k.link (.event q) = none ∨ k.link (.event q) = signaled
  locks : ∀ q, u.lock q → k.link (.event q) = signaled ∧ k.owners q = []
  timers : k.timers.bermudaTimerList = none
  calls : ∀ i, k.waiting i = none ∧ k.settled i = none

theorem enterQueue_empty (empty : k.link r = none) (front : r ≠ .next t) :
    enterQueue r t k = (k.setLink (.next t) none).setLink r (some t) := by
  have free : k.link r ≠ signaled := by simp [empty,signaled]
  have last : ((k.setLink (.next t) none).setLink r (some t)).next t = none := by
    simp [Kernel.next,Kernel.setLink,front.symm]
  unfold enterQueue
  rw [if_neg free,if_pos empty]
  unfold place
  dsimp only
  rw [last]

/-- A thread that joins a queue is stamped, and has no events pending. -/
def prepared (r : Ref) (t : Addr) (k : Kernel) : Kernel := ((k.setEc t 0).setQueue t (some r)).stamp t

theorem add_run (empty : k.link r = none) (front : r ≠ .next t) :
    (bermudaThreadPrioQueueAdd r t).run k =
      some ((),((prepared r t k).setLink (.next t) none).setLink r (some t)) := by
  have free : (prepared r t k).link r = none := empty
  have first : (prepared r t k).link r = signaled ∨ (prepared r t k).link r = none := .inr free
  unfold bermudaThreadPrioQueueAdd
  simp only [Prog.run_bind,Prog.run_act,Prog.run_access,Option.bind_some]
  change (if (prepared r t k).link r = signaled ∨ (prepared r t k).link r = none then _ else _ : Code Unit).run
    (enterQueue r t (prepared r t k)) = _
  rw [if_pos first,enterQueue_empty free front]
  rfl

/-- The idle thread on the queues of a blank kernel. -/
def initialized (idle : Addr) (k : Kernel) : Kernel :=
  let k := bermudaThreadInit ['I','D','L','E'] 255 idle k
  let k := (k.setLink (.qNext idle) (k.link .bermudaThreadHead)).setLink .bermudaThreadHead (some idle)
  let k := prepared .bermudaRunQueue idle (k.create idle)
  {(k.setLink (.next idle) none).setLink .bermudaRunQueue (some idle) with bermudaCurrentThread := idle}

theorem schedulerInit_run (run : k.link .bermudaRunQueue = none) :
    (bermudaSchedulerInit t).run k = some ((),initialized t k) := by
  unfold bermudaSchedulerInit bermudaThreadCreate
  simp only [Prog.run_bind,Prog.run_act,Option.bind_some]
  rw [add_run (by exact run) (by simp)]
  rfl

/-- What `BermudaSchedulerInit` leaves: the idle thread, and event queues without
waiters. A lock is signaled. -/
structure Booted (u : Usage) (k : Kernel) : Prop where
  current : k.bermudaCurrentThread = u.idle
  real : u.idle ≠ nowhere
  runQueue : k.link .bermudaRunQueue = some u.idle ∧ k.next u.idle = none
  threads : k.link .bermudaThreadHead = some u.idle ∧ k.qNext u.idle = none
  killQueue : k.link .bermudaKillQueue = none
  events : ∀ q, k.link (.event q) = none ∨ k.link (.event q) = signaled
  locks : ∀ q, u.lock q → k.link (.event q) = signaled ∧ k.owners q = []
  idle : (k.thread u.idle).queue = some .bermudaRunQueue ∧ (k.thread u.idle).ec = 0 ∧
    (k.thread u.idle).state ≠ .waiting ∧ k.arrived u.idle < k.clock
  timers : k.timers.bermudaTimerList = none
  creating : k.creating = none
  calls : ∀ i, k.waiting i = none ∧ k.settled i = none

def booted (u : Usage) (c : Config Kernel Addr Op Int) : Prop :=
  Booted u c.state ∧ c.running = u.idle ∧ ∀ i, c.call i = none

theorem initialized_link (head : k.link .bermudaThreadHead = none) (r : Ref) :
    (initialized t k).link r =
      if r = .bermudaRunQueue ∨ r = .bermudaThreadHead then some t
      else if r = .next t ∨ r = .qNext t then none else k.link r := by
  simp only [initialized,prepared,bermudaThreadInit,Kernel.setLink,Kernel.stamp,Kernel.create,
    Kernel.setQueue,Kernel.setEc,Kernel.setThread,Function.update_apply]
  split_ifs <;> simp_all

theorem schedulerInit_booted (blank : Blank u k) (real : u.idle ≠ nowhere) :
    Booted u (initialized u.idle k) := by
  obtain ⟨run,head,kill⟩ := blank.links
  have link := initialized_link (t := u.idle) head
  have event (q : Addr) : (initialized u.idle k).link (.event q) = k.link (.event q) := by simp [link]
  refine ⟨rfl,real,?_,?_,?_,fun q => event q ▸ blank.events q,fun q locked => event q ▸ blank.locks q locked,
    ?_,blank.timers,rfl,blank.calls⟩
  · simp [Kernel.next,link]
  · simp [Kernel.qNext,link]
  · simp [link,kill]
  · simp [initialized,prepared,bermudaThreadInit,Kernel.setLink,Kernel.stamp,Kernel.create,
      Kernel.setQueue,Kernel.setEc,Kernel.setThread]

/-- The lists of a kernel in which only the idle thread exists. -/
def bootLists (u : Usage) : Lists where
  queue := Function.update (fun _ => []) .bermudaRunQueue [u.idle]
  all := [u.idle]
  newborn := none

theorem boot_queue {r : Ref} (member : t ∈ (bootLists u).queue r) :
    t = u.idle ∧ r = .bermudaRunQueue := by
  by_cases same : r = .bermudaRunQueue
  · subst same
    exact ⟨by simpa [bootLists] using member,rfl⟩
  · simp [bootLists,same] at member

theorem boot_client (boot : Booted u k) : Client u u.idle (bootLists u) k.rest k := by
  have run : (bootLists u).queue .bermudaRunQueue = [u.idle] := by simp [bootLists]
  have empty {r : Ref} (other : r ≠ .bermudaRunQueue) : (bootLists u).queue r = [] := by
    simp [bootLists,other]
  have core : Core u.lock k.links (bootLists u) := by
    refine ⟨fun r queue free => ?_,fun r queue signal => ?_,?_,fun r other => ?_,?_,boot.killQueue,?_,?_,?_,
      fun r => ?_,?_,?_,?_,?_,?_,fun q locked => ?_,?_⟩
    · by_cases same : r = .bermudaRunQueue
      · subst same
        rw [run]
        exact boot.runQueue
      · rw [empty same]
        cases r with
        | event q => exact (boot.events q).resolve_right free
        | bermudaRunQueue => exact absurd rfl same
        | _ => exact queue.elim
    · by_cases same : r = .bermudaRunQueue
      · subst same
        exact absurd (Option.some.inj (boot.runQueue.1.symm.trans signal)) boot.real
      · exact empty same
    · exact fun signal => boot.real (Option.some.inj (boot.runQueue.1.symm.trans signal))
    · exact empty fun same => other (same ▸ trivial)
    · exact boot.threads
    · simpa [bootLists] using boot.real.symm
    · intro r s member
      simp [bootLists,(boot_queue member).1]
    · intro r s t left right
      exact (boot_queue left).2.trans (boot_queue right).2.symm
    · by_cases same : r = .bermudaRunQueue
      · subst same
        rw [run]
        exact List.pairwise_singleton _ _
      · rw [empty same]
        exact List.Pairwise.nil
    · intro r s member
      rw [(boot_queue member).1]
      exact boot.idle.2.2.2
    · intro r s member
      obtain ⟨rfl,rfl⟩ := boot_queue member
      exact boot.idle.1
    · intro s member _ events
      obtain rfl : s = u.idle := by simpa [bootLists] using member
      exact absurd boot.idle.2.1 events
    · intro r s member
      rw [(boot_queue member).1]
      change (k.thread u.idle).ec < _
      rw [boot.idle.2.1]
      decide
    · simp [bootLists]
    · obtain ⟨signal,free⟩ := boot.locks q locked
      change (k.link (.event q) = signaled ↔ k.owners q = []) ∧ (k.owners q).length ≤ 1
      simp [signal,free]
    · intro q _ s member
      exact absurd (boot_queue member).2 (by simp)
  refine ⟨⟨⟨core,rfl,boot.creating.symm⟩,⟨⟨rfl,by simp [run],fun s waits r member => ?_,?_⟩,⟨[],boot.timers,
    by simp,by simp,by simp,?_,?_,by simp⟩,⟨?_,?_,?_,?_⟩⟩,fun s known floating _ => ?_,boot.current⟩,by simp [run],
    (boot.calls _).1,(boot.calls _).2⟩
  · obtain ⟨rfl,_⟩ := boot_queue member
    exact boot.idle.2.2.1 waits
  · exact fun q s member => absurd (boot_queue member).2 (by simp)
  · exact fun q s member => absurd (boot_queue member).2 (by simp)
  · exact fun p q s v b member => absurd (boot_queue member).2 (by simp)
  · exact fun s q b waits => absurd ((boot.calls s).1.symm.trans waits) (by simp)
  · exact fun s q b turned => absurd ((boot.calls s).2.symm.trans turned) (by simp)
  · exact fun q s member => absurd (boot_queue member).2 (by simp)
  · exact fun s q b waits => absurd ((boot.calls s).1.symm.trans waits) (by simp)
  · refine absurd ?_ (floating .bermudaRunQueue)
    rw [run]
    exact known

theorem booted_good {c : Config Kernel Addr Op Int} (boot : booted u c) :
    Good (scheduler u) (kernelContract u) c := by
  obtain ⟨start,running,idle⟩ := boot
  refine ⟨fun _ => ?_,fun k busy => ?_,fun i k _ busy => ?_,fun i _ _ v resumed own => ?_⟩
  · rw [running]
    exact ⟨_,_,boot_client start⟩
  · rw [idle] at busy
    cases busy
  · rw [idle] at busy
    cases busy
  · obtain ⟨L,R,rest,runner,top⟩ := resumed
    rw [runner.own] at own
    obtain ⟨waiting,settled⟩ := Prod.mk.inj own
    obtain ⟨unwaited,unsettled⟩ := start.calls i
    exact ⟨L,R,runner,by simp [top],waiting.trans unwaited,settled.trans unsettled⟩

/-- Every state of every run keeps the contract. -/
theorem kernel_good (gentle : Gentle u) {c : Config Kernel Addr Op Int}
    (reach : Reachable (scheduler u) (booted u) c) : Good (scheduler u) (kernelContract u) c :=
  reachable_good (kernel_verified gentle) (fun _ boot => booted_good boot) reach

section Script

instance : Decidable (Known k t) :=
  decidable_of_iff (t ∈ (collect k.qNext addrLimit (k.link .bermudaThreadHead)).getD []) <| by
    constructor
    · intro inside
      cases found : collect k.qNext addrLimit (k.link .bermudaThreadHead) with
      | none => simp [found] at inside
      | some ts => exact ⟨ts,collect_chain found,by simpa [found] using inside⟩
    · rintro ⟨ts,chain,inside⟩
      have short := chain_length chain
      rw [chain_collect chain short]
      exact inside

variable [DecidablePred u.lock] [∀ q k, Decidable (u.raised q k)] [∀ t k, Decidable (u.notifies t k)]

instance {i : Addr} {op : Op} : Decidable (allowed u i op k) :=
  match op with
  | .bermudaThreadCreate _ _ _ => inferInstanceAs (Decidable (_ ∧ _))
  | .bermudaThreadSleep _ => inferInstanceAs (Decidable (_ ≠ _))
  | .bermudaThreadSetPrio _ => inferInstanceAs (Decidable (_ ∧ _))
  | .bermudaThreadYield => isTrue trivial
  | .bermudaThreadWait => inferInstanceAs (Decidable (_ ≠ _))
  | .bermudaThreadNotify none => isTrue (by simp [allowed])
  | .bermudaThreadNotify (some s) => decidable_of_iff (Known k s ∧ u.notifies s k) (by simp [allowed])
  | .bermudaThreadExit => isFalse id
  | .bermudaEventWait _ _ => inferInstanceAs (Decidable (_ ≠ _))
  | .bermudaEventWaitNext none _ => decidable_of_iff (i ≠ u.idle) (by simp [allowed])
  | .bermudaEventWaitNext (some o) _ =>
    decidable_of_iff (i ≠ u.idle ∧ ¬u.lock o) (by simp [allowed])
  | .bermudaEventSignal _ => inferInstanceAs (Decidable (_ → _))

/-- What may come next in a run: a call of the running thread and so many actions after
it, or an interrupt. -/
inductive Stage
  | call (op : Op) (actions : Nat)
  | event (q : Addr)
  | tick
  | heap (a : Addr)

def Stage.perform (u : Usage) (c : Config Kernel Addr Op Int) : Stage → Config Kernel Addr Op Int
  | .call op actions => advances (scheduler u) actions (invoke (scheduler u) op c)
  | .event q => {c with state := bermudaEventSignalFromISR q c.state}
  | .tick => {c with state := {c.state with bermudaSystemTick := (c.state.bermudaSystemTick + 1) % 2^32}}
  | .heap a => {c with state := {c.state with heapNext := a}}

def Stage.possible (u : Usage) (c : Config Kernel Addr Op Int) : Stage → Prop
  | .call op _ => c.call c.running = none ∧ allowed u c.running op c.state
  | .event q => u.raised q c.state
  | _ => True

instance {c : Config Kernel Addr Op Int} {stage : Stage} : Decidable (stage.possible u c) :=
  match stage with
  | .call _ _ => inferInstanceAs (Decidable (_ ∧ _))
  | .event q => inferInstanceAs (Decidable (u.raised q c.state))
  | .tick => isTrue trivial
  | .heap _ => isTrue trivial

def perform (u : Usage) (script : List Stage) (c : Config Kernel Addr Op Int) :
    Config Kernel Addr Op Int :=
  script.foldl (Stage.perform u) c

def possible (u : Usage) : List Stage → Config Kernel Addr Op Int → Prop
  | [],_ => True
  | stage::script,c => stage.possible u c ∧ possible u script (stage.perform u c)

def decidePossible : (script : List Stage) → (c : Config Kernel Addr Op Int) →
    Decidable (possible u script c)
  | [],_ => isTrue trivial
  | stage::script,c =>
    have := decidePossible script (stage.perform u c)
    inferInstanceAs (Decidable (_ ∧ _))

instance {script : List Stage} {c : Config Kernel Addr Op Int} : Decidable (possible u script c) :=
  decidePossible script c

omit [DecidablePred u.lock] [∀ q k, Decidable (u.raised q k)] [∀ t k, Decidable (u.notifies t k)] in
theorem perform_reachable {init : Config Kernel Addr Op Int → Prop} {script : List Stage}
    {c : Config Kernel Addr Op Int} (reach : Reachable (scheduler u) init c)
    (admitted : possible u script c) : Reachable (scheduler u) init (perform u script c) := by
  induction script generalizing c with
  | nil => exact reach
  | cons stage script ih =>
    refine ih ?_ admitted.2
    cases stage with
    | call op actions =>
      obtain ⟨idle,may⟩ := admitted.1
      exact reachable_advances actions (.step reach (.call idle may))
    | event q => exact .step reach (.interrupt (.event q admitted.1))
    | tick => exact .step reach (.interrupt .tick)
    | heap a => exact .step reach (.interrupt (.heap a))

end Script

/-- A kernel whose variables are zero but for the locks, with the heap's next block at
`heap`. -/
def blankKernel (locks : List Addr) (heap : Addr) : Kernel where
  link
    | .event q => if q ∈ locks then signaled else none
    | _ => none
  thread _ := ⟨[],none,0,none,.running,0⟩
  bermudaCurrentThread := 0
  timers := ⟨fun _ => ⟨none,none,0,0,0⟩,none,0⟩
  bermudaSystemTick := 0
  tickResume := 0
  heapNext := heap
  owners _ := []
  waiting _ := none
  settled _ := none
  creating := none
  arrived _ := 0
  clock := 0

def bootConfig (u : Usage) (locks : List Addr) (heap : Addr) : Config Kernel Addr Op Int :=
  ⟨initialized u.idle (blankKernel locks heap),u.idle,fun _ => none⟩

theorem bootConfig_booted {locks : List Addr} {heap : Addr} (real : u.idle ≠ nowhere)
    (lock : ∀ q, u.lock q → q ∈ locks) : booted u (bootConfig u locks heap) := by
  refine ⟨schedulerInit_booted ⟨⟨rfl,rfl,rfl⟩,fun q => ?_,fun q locked => ?_,rfl,fun _ => ⟨rfl,rfl⟩⟩ real,
    rfl,fun _ => rfl⟩
  · by_cases member : q ∈ locks
    · exact .inr (if_pos member)
    · exact .inl (if_neg member)
  · exact ⟨if_pos (lock q locked),rfl⟩

end BermudaOS.Sys.Sched
