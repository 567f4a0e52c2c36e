import BermudaOS.Sys.SchedLocks

/-! The events that interrupts signal. They are counted at the head of the queue, and
whatever moves the head moves the count; passes of the scheduler turn each of them
into one wake-up, as long as threads wait. -/
namespace BermudaOS.Sys.Sched
open VirtTimer Lib.Chains Lib.Program

variable {u : Usage} {L M N : Lists} {R Q : Rest} {k l : Kernel} {me t q : Addr} {ws us : List Addr}
  {c d : Config Kernel Addr Op Int}

/-- The event counter of the first waiter. -/
def counted (k : Kernel) (ws : List Addr) : Nat := pending k.links ws

/-- What becomes of a count when the first waiter, or another one, leaves: it moves to
the new first waiter, or signals the queue. -/
def Carries (k l : Kernel) (q : Addr) (ws us : List Addr) : Prop :=
  (us ≠ [] → counted l us = counted k ws) ∧
    (us = [] → l.link (.event q) = if counted k ws = 0 then none else signaled)

/-- What one step does to an event queue and the events pending on it. -/
inductive Counted (k l : Kernel) (q : Addr) : List Addr → List Addr → Prop
  | keep {ws : List Addr} (word : l.link (.event q) = k.link (.event q))
      (count : counted l ws = counted k ws) : Counted k l q ws ws
  | event {t : Addr} {us : List Addr} (count : counted l (t::us) = counted k (t::us) + 1) :
      Counted k l q (t::us) (t::us)
  | signal (free : k.link (.event q) = none) (word : l.link (.event q) = signaled) :
      Counted k l q [] []
  | post {ws : List Addr} (word : l.link (.event q) = k.link (.event q))
      (count : counted l ws + 1 = counted k ws) : Counted k l q ws ws
  | insert {ws us : List Addr} {t : Addr}
      (place : us = ws.orderedInsert (fun t u => (k.thread t).prio < (k.thread u).prio) t)
      (word : l.link (.event q) ≠ signaled) (count : counted l us = counted k ws + if k.link (.event q) = signaled then 1 else 0) :
      Counted k l q ws us
  | wake {us : List Addr} {t : Addr} (carries : Carries k l q (t::us) us) :
      Counted k l q (t::us) us
  | timeout {ws us : List Addr} {t : Addr} (member : t ∈ ws) (left : us = ws.erase t)
      (carries : Carries k l q ws us) : Counted k l q ws us
  | reset (word : k.link (.event q) = signaled) (free : l.link (.event q) = none) :
      Counted k l q [] []
  | again (word : l.link (.event q) = signaled) : Counted k l q [] []

theorem Moved.counted {bounded : Prop} (holds : bounded) (moved : Moved bounded me k.links l.links q ws us) :
    Counted k l q ws us := by
  cases moved with
  | keep still _ => exact .keep still.word still.count
  | deliver word count _ => exact .post word (count holds)
  | join place word count _ => exact .insert place word count
  | wake carried _ => exact .wake carried
  | timeout member left carried _ => exact .timeout member left carried
  | take signal word _ => exact .reset signal word
  | reset signal word _ => exact .reset signal word
  | post word _ => exact .again word

theorem signalFromISR_cons (core : Core u.lock k.links L) (list : L.queue (.event q) = t::us) :
    bermudaEventSignalFromISR q k = k.setEc t (((k.thread t).ec + 1) % 2^8) := by
  have word : k.link (.event q) = some t := core.first trivial list
  have busy : k.link (.event q) ≠ signaled := core.unsignaled trivial (by simp [list])
  rw [word] at busy
  unfold bermudaEventSignalFromISR
  rw [word]
  exact if_neg busy

theorem signalFromISR_nil (core : Core u.lock k.links L) (list : L.queue (.event q) = []) :
    bermudaEventSignalFromISR q k = k.setLink (.event q) signaled := by
  unfold bermudaEventSignalFromISR
  rcases core.head (r := .event q) trivial with ⟨signal,_⟩ | ⟨_,head⟩
  · have word : k.link (.event q) = signaled := signal
    have same : k.setLink (.event q) signaled = k := by
      rw [← word]
      unfold Kernel.setLink
      rw [Function.update_eq_self]
    rw [word,same]
    exact if_pos rfl
  · rw [list] at head
    rw [show k.link (.event q) = none from head]

theorem setEc_count (n : Nat) : counted (k.setEc t n) (t::us) = n := by
  simp [counted,pending,Kernel.links_setEc]

theorem signalFromISR_own (core : Core u.lock k.links L) (list : L.queue (.event q) = ws)
    (room : ∀ t, ws.head? = some t → (k.thread t).ec < 2^8 - 1) :
    Counted k (bermudaEventSignalFromISR q k) q ws ws := by
  cases ws with
  | nil =>
    rw [signalFromISR_nil core list]
    have word : (k.setLink (.event q) signaled).link (.event q) = signaled := Function.update_self _ _ _
    rcases core.head (r := .event q) trivial with ⟨signal,_⟩ | ⟨_,head⟩
    · exact .keep (word.trans signal.symm) rfl
    · rw [list] at head
      exact .signal head word
  | cons t us =>
    rw [signalFromISR_cons core list]
    have small := room t rfl
    exact .event ((setEc_count _).trans (Nat.mod_eq_of_lt (by omega)))

theorem signalFromISR_other {p : Addr} (core : Core u.lock k.links L) (other : p ≠ q) :
    Counted k (bermudaEventSignalFromISR q k) p (L.queue (.event p)) (L.queue (.event p)) := by
  cases list : L.queue (.event q) with
  | nil =>
    rw [signalFromISR_nil core list]
    exact .keep (Function.update_of_ne (by simpa using other) _ _) rfl
  | cons t us =>
    rw [signalFromISR_cons core list]
    have still := deliver_still core list
      (Kernel.links_setEc k t (((k.thread t).ec + 1) % 2^8)) other
    exact .keep still.word still.count

theorem irq_counted (here : At u L R k) (bounded : Bounded u) (irq : Irq u k l) (q : Addr) :
    Counted k l q (L.queue (.event q)) (L.queue (.event q)) := by
  cases irq with
  | event p raised =>
    by_cases same : q = p
    · subst same
      refine signalFromISR_own here.core rfl fun t first => bounded q k t raised ?_
      obtain ⟨us,list⟩ := List.head?_eq_some_iff.mp first
      exact here.core.first trivial list
    · exact signalFromISR_other here.core same
  | tick => exact .keep rfl rfl
  | heap a => exact .keep rfl rfl


section Passes

/-- `n` interrupts signal the queue. -/
def raise (q : Addr) (n : Nat) (k : Kernel) : Kernel := (bermudaEventSignalFromISR q)^[n] k

theorem signalFromISR_at (here : At u L R k) (unlocked : ¬u.lock q) :
    At u L R (bermudaEventSignalFromISR q k) := by
  refine ⟨event_core here.core unlocked,?_,here.young⟩
  cases list : L.queue (.event q) with
  | nil =>
    rw [signalFromISR_nil here.core list]
    exact here.rest
  | cons t us =>
    rw [signalFromISR_cons here.core list,Kernel.rest_setEc]
    exact here.rest

theorem raise_succ (q : Addr) (n : Nat) (k : Kernel) :
    raise q (n + 1) k = bermudaEventSignalFromISR q (raise q n k) :=
  Function.iterate_succ_apply' _ _ _

theorem raise_at (here : At u L R k) (unlocked : ¬u.lock q) (n : Nat) : At u L R (raise q n k) := by
  induction n with
  | zero => exact here
  | succ n ih =>
    rw [raise_succ]
    exact signalFromISR_at ih unlocked

/-- The counter of the first waiter is one byte. -/
theorem raise_wraps (here : At u L R k) (unlocked : ¬u.lock q) (list : L.queue (.event q) = ws) (busy : ws ≠ [])
    (n : Nat) : counted (raise q n k) ws = (counted k ws + n) % 2^8 := by
  obtain ⟨t,us,rfl⟩ := List.exists_cons_of_ne_nil busy
  induction n with
  | zero => exact (Nat.mod_eq_of_lt (here.core.small (.event q) t (by simp [list]))).symm
  | succ n ih =>
    have before : ((raise q n k).thread t).ec = (counted k (t::us) + n) % 2^8 := ih
    rw [raise_succ,signalFromISR_cons (raise_at here unlocked n).core list,setEc_count,before,Nat.mod_add_mod,
      Nat.add_assoc]

theorem raise_counted (here : At u L R k) (unlocked : ¬u.lock q) (list : L.queue (.event q) = ws)
    (free : k.link (.event q) ≠ signaled) {n : Nat} (few : counted k ws + n < 2^8) :
    At u L R (raise q n k) ∧ (ws ≠ [] → counted (raise q n k) ws = counted k ws + n) ∧
      (ws = [] → (raise q n k).link (.event q) = if n = 0 then none else signaled) := by
  refine ⟨raise_at here unlocked n,fun busy => ?_,fun empty => ?_⟩
  · rw [raise_wraps here unlocked list busy,Nat.mod_eq_of_lt few]
  · cases n with
    | zero =>
      rcases here.core.head (r := .event q) trivial with ⟨signal,_⟩ | ⟨_,head⟩
      · exact absurd signal free
      · rw [list,empty] at head
        exact head
    | succ n =>
      rw [raise_succ,signalFromISR_nil (raise_at here unlocked n).core (list.trans empty)]
      exact Function.update_self _ _ _

/-- A thread that runs `BermudaSchedulerExec`, to where it returns or gives up the
processor. -/
def pass (k : Kernel) : Option Kernel := bermudaSchedulerExec.runOut bermudaStackSave k

def passes : Nat → Kernel → Option Kernel
  | 0,k => some k
  | n+1,k => (pass k).bind (passes n)

/-- The system without interrupts. -/
def Usage.silent (u : Usage) : Usage := {u with raised := fun _ _ => False,apart := fun _ _ => False.elim}

theorem silent_quiet (q : Addr) : Quiet u.silent q := fun _ => id

/-- What a thread without others may rely on: nothing. -/
def lone : Contract Kernel Addr Op Int Unit where
  inv _ := True
  halts := False
  step _ _ _ _ := True
  own _ _ := ()
  client _ _ := False
  resumed _ _ := False
  done _ _ _ _ _ := False

theorem lone_follows (u : Usage) (op : Op) (me : Addr) : Follows u op me lone :=
  ⟨fun _ _ _ _ => trivial,fun _ _ _ _ _ _ _ => trivial⟩

/-- What the scheduler compares to know whether there are ticks to process. -/
def ticks (k : Kernel) : Nat × Nat := (k.bermudaSystemTick,k.tickResume)

open Prog in
theorem add_keeps (r : Ref) (t : Addr) : Keeps ticks (bermudaThreadPrioQueueAdd r t) := by
  have placed (r : Ref) (p : Option Addr) (k : Kernel) : ticks (place r p t k) = ticks k := by
    unfold place
    dsimp only
    split
    · rfl
    · split <;> rfl
  refine keeps_bind (keeps_act fun _ => rfl) fun _ => keeps_bind (keeps_access fun k => ?_) fun p => ?_
  · unfold enterQueue
    split_ifs
    · exact placed _ _ _
    · exact placed _ _ _
    · rfl
  · split
    · trivial
    · refine keeps_bind (keeps_get _) fun walk => ?_
      split
      · trivial
      · exact keeps_act fun k => placed _ _ k

open Prog in
theorem signalRaw_keeps (q : Ref) : Keeps ticks (bermudaEventSignalRaw q) := by
  have detached (t : Addr) (k : Kernel) : ticks (detach q t k) = ticks k := by
    unfold detach
    dsimp only
    split
    · rfl
    · split <;> rfl
  have released (k : Kernel) : ticks (k.release q) = ticks k := by cases q <;> rfl
  have handed (t : Addr) (k : Kernel) : ticks (k.handOver q t) = ticks k := by cases q <;> rfl
  refine keeps_bind (keeps_get _) fun t => ?_
  split
  · trivial
  split
  · exact keeps_bind (keeps_act released) fun _ => trivial
  · next t _ =>
    refine keeps_bind (keeps_act fun k => (handed t _).trans (detached t k)) fun _ => ?_
    refine keeps_bind ?_ fun _ => keeps_bind (keeps_act fun _ => rfl) fun _ =>
      keeps_bind (add_keeps _ _) fun _ => trivial
    refine keeps_bind (keeps_get _) fun timer => ?_
    split
    · refine keeps_bind (keeps_bind (keeps_access fun _ => rfl) fun ended => ?_) fun _ =>
        keeps_act fun _ => rfl
      split <;> trivial
    · trivial

open Prog in
theorem postEvents_keeps (fuel : Nat) (p : Option Addr) : Keeps ticks (postEvents fuel p) := by
  induction fuel generalizing p with
  | zero => cases p <;> trivial
  | succ fuel ih =>
    cases p with
    | none => trivial
    | some t =>
      refine keeps_bind ?_ fun _ => keeps_bind (keeps_get _) fun p => ih p
      refine keeps_bind (keeps_get _) fun ec => ?_
      split
      · trivial
      refine keeps_bind (keeps_get _) fun queue => ?_
      split
      · trivial
      refine keeps_bind (keeps_access fun _ => rfl) fun word => ?_
      split
      · trivial
      · exact keeps_bind (signalRaw_keeps _) fun _ => trivial

theorem execute_out (here : At u L R k) (sound : Sound u L R) :
    ∃ l Q, (executeNew >>= fun _ => bermudaThreadFree).runOut bermudaStackSave k = some l ∧
      At u L Q l ∧ Sound u L Q ∧ l.links = k.links ∧ ticks l = ticks k := by
  obtain ⟨h,rest,list⟩ := List.exists_cons_of_ne_nil (List.ne_nil_of_mem sound.placed.idle)
  have head : k.link .bermudaRunQueue = some h := here.core.first trivial list
  by_cases top : k.link .bermudaRunQueue = some k.bermudaCurrentThread
  · refine ⟨k,R,?_,here,sound,rfl,rfl⟩
    have stays : executeNew.run k = some ((),k) := by
      unfold executeNew
      rw [Prog.run_bind,Prog.run_get,Option.bind_some,if_neg (by simp [top])]
      rfl
    rw [Prog.runOut_bind stays]
    have killed : k.link .bermudaKillQueue = none := here.core.kill
    unfold bermudaThreadFree freeLoop
    rw [Prog.runOut_bind (Prog.run_get _ _)]
    rw [killed]
    rfl
  · have there : At u L R.standBy (standBy k) :=
      ⟨(standBy_links k).symm ▸ here.core,(standBy_rest k).trans (congrArg Rest.standBy here.rest),
        here.young.trans R.standBy_same.2.1.symm⟩
    obtain ⟨_,stepped,sound₂⟩ := swap_stepped .bermudaThreadYield R.current there sound.standBy list
    have still : (standBy k).link .bermudaRunQueue = some h :=
      (congrArg (fun x : Links => x.link .bermudaRunQueue) (standBy_links k)).trans head
    refine ⟨bermudaStackSave (standBy k),_,?_,stepped.after,sound₂,?_,?_⟩
    · unfold executeNew
      rw [Prog.bind_assoc,Prog.runOut_bind (Prog.run_get _ _),if_pos (by simp [top]),Prog.bind_assoc,
        Prog.runOut_bind (Prog.run_act _ _)]
      unfold bermudaSwitchTask
      rw [Prog.bind_assoc,Prog.runOut_bind (Prog.run_get _ _),still]
      rfl
    · rw [stackSave_links,standBy_links]
    · unfold bermudaStackSave
      rw [still]
      change ticks (standBy k) = ticks k
      unfold standBy
      split <;> rfl

theorem At.silent (here : At u L R k) : At u.silent L R k := ⟨here.core,here.rest,here.young⟩

theorem At.heard (here : At u.silent L R k) : At u L R k := ⟨here.core,here.rest,here.young⟩

theorem Sound.silent (sound : Sound u L R) : Sound u.silent L R := by
  obtain ⟨placed,timed,locked⟩ := sound
  exact ⟨⟨placed.grown,placed.idle,placed.stopped,placed.asleep⟩,timed,
    ⟨locked.held,locked.given,locked.waits,locked.ended⟩⟩

theorem Sound.heard (sound : Sound u.silent L R) : Sound u L R := by
  obtain ⟨placed,timed,locked⟩ := sound
  exact ⟨⟨placed.grown,placed.idle,placed.stopped,placed.asleep⟩,timed,
    ⟨locked.held,locked.given,locked.waits,locked.ended⟩⟩

/-- The first part of a pass posts events, and wakes someone if there are both events
and waiters. -/
theorem posts_served (here : At u L R k) (sound : Sound u L R) (q : Addr) :
    ∃ l M Q n, (postEvents addrLimit (k.link .bermudaThreadHead)).run k = some ((),l) ∧ At u M Q l ∧
      Sound u M Q ∧ ticks l = ticks k ∧
      (∀ s ∈ L.queue .bermudaRunQueue, s ∈ M.queue .bermudaRunQueue) ∧
      Served q k.links l.links L M n ∧
      (L.queue (.event q) ≠ [] → pending k.links (L.queue (.event q)) ≠ 0 → n ≠ 0) := by
  have head : k.link .bermudaThreadHead = L.all.head? := chain_head here.core.all
  have long := chain_length here.core.all
  have posts := postEvents_meets (lone_follows u.silent .bermudaThreadYield R.current) here.silent sound.silent rfl
    (List.nil_append L.all).symm long
  obtain ⟨_,l,runs,M,Q,there,sound₂,onward,served⟩ := meets_run (fun _ _ => id) id posts
  obtain ⟨n,first,progress⟩ := served q (silent_quiet q)
  refine ⟨l,M,Q,n,head ▸ runs,there.heard,sound₂.heard,Prog.keeps_run (postEvents_keeps _ _) runs,onward.run,first,
    fun busy events => ?_⟩
  obtain ⟨t,us,list⟩ := List.exists_cons_of_ne_nil busy
  rw [list] at events
  exact progress t us list (here.core.known (.event q) t (by simp [list])) events

theorem pass_parts {m : Kernel} (posts : (postEvents addrLimit (k.link .bermudaThreadHead)).run k = some ((),l))
    (timers : processTicks.run l = some ((),m)) :
    pass k = (executeNew >>= fun _ => bermudaThreadFree).runOut bermudaStackSave m := by
  unfold pass bermudaSchedulerExec
  rw [Prog.runOut_bind (Prog.run_get _ _),Prog.runOut_bind posts,Prog.runOut_bind timers]

/-- Without new ticks nothing else in a pass wakes anyone. -/
theorem pass_served (here : At u L R k) (sound : Sound u L R)
    (idle : k.bermudaSystemTick = k.tickResume) (q : Addr) :
    ∃ l M Q n, pass k = some l ∧ At u M Q l ∧ Sound u M Q ∧ l.bermudaSystemTick = l.tickResume ∧
      (∀ s ∈ L.queue .bermudaRunQueue, s ∈ M.queue .bermudaRunQueue) ∧
      Served q k.links l.links L M n ∧
      (L.queue (.event q) ≠ [] → pending k.links (L.queue (.event q)) ≠ 0 → n ≠ 0) := by
  obtain ⟨l,M,Q,n,posts,there,sound₂,same,run,first,progress⟩ := posts_served here sound q
  obtain ⟨m,S,out,after,sound₃,links,same₂⟩ := execute_out there sound₂
  obtain ⟨tick,resume⟩ := Prod.mk.inj same
  obtain ⟨tick₂,resume₂⟩ := Prod.mk.inj same₂
  have quiet : l.bermudaSystemTick = l.tickResume := by rw [tick,resume,idle]
  have still : processTicks.run l = some ((),l) := by
    unfold processTicks
    rw [Prog.run_bind,Prog.run_get,Option.bind_some,Prog.run_bind,Prog.run_get,Option.bind_some,
      if_pos quiet]
    rfl
  exact ⟨m,M,S,n,(pass_parts posts still).trans out,after,sound₃,by rw [tick₂,resume₂,quiet],run,links ▸ first,
    progress⟩

/-- A pass comes to its end, also where there are ticks to process, and someone runs whom an
event woke. -/
theorem pass_wakes (here : At u L R k) (sound : Sound u L R) (q : Addr) :
    ∃ l M Q, pass k = some l ∧ At u M Q l ∧ Sound u M Q ∧
      (∀ s ∈ L.queue .bermudaRunQueue, s ∈ M.queue .bermudaRunQueue) ∧
      (L.queue (.event q) ≠ [] → pending k.links (L.queue (.event q)) ≠ 0 →
        ∃ s ∈ L.queue (.event q), s ∈ M.queue .bermudaRunQueue) := by
  obtain ⟨l₁,M₁,Q₁,n,posts,there₁,sound₁,-,run₁,first,progress⟩ := posts_served here sound q
  have timers := processTicks_meets (lone_follows u.silent .bermudaThreadYield R.current) there₁.silent sound₁.silent
  obtain ⟨_,l₂,runs,M,Q₂,there₂,sound₂,onward⟩ := meets_run (fun _ _ => id) id timers
  obtain ⟨l,Q,out,there,sound₃,-⟩ := execute_out there₂.heard sound₂.heard
  refine ⟨l,M,Q,(pass_parts posts runs).trans out,there,sound₃,fun s inside => onward.run s (run₁ s inside),
    fun busy events => ?_⟩
  have woke := progress busy events
  obtain ⟨t,us,list⟩ := List.exists_cons_of_ne_nil busy
  obtain ⟨n,rfl⟩ := Nat.exists_eq_succ_of_ne_zero woke
  have served := first.runs t (by simp [list])
  exact ⟨t,by simp [list],onward.run t served⟩

theorem passes_served (here : At u L R k) (sound : Sound u L R)
    (idle : k.bermudaSystemTick = k.tickResume) (q : Addr) (m : Nat) :
    ∃ l M Q n, passes m k = some l ∧ At u M Q l ∧
      (∀ s ∈ L.queue .bermudaRunQueue, s ∈ M.queue .bermudaRunQueue) ∧
      Served q k.links l.links L M n ∧
      min m (min (L.queue (.event q)).length (pending k.links (L.queue (.event q)))) ≤ n := by
  induction m generalizing k L R with
  | zero =>
    exact ⟨k,L,R,0,rfl,here,fun _ inside => inside,Still.served ⟨rfl,rfl⟩ rfl,by simp⟩
  | succ m ih =>
    obtain ⟨l₁,M₁,Q₁,n₁,once,there,sound₁,idle₁,run₁,first,progress⟩ := pass_served here sound idle q
    obtain ⟨l,M,Q,n,often,after,run,second,enough⟩ := ih there sound₁ idle₁
    refine ⟨l,M,Q,n₁ + n,?_,after,fun s inside => run s (run₁ s inside),first.trans second run,?_⟩
    · rw [passes,once]
      exact often
    · have size : (M₁.queue (.event q)).length = (L.queue (.event q)).length - n₁ := by
        rw [first.list,List.length_drop]
      by_cases empty : M₁.queue (.event q) = []
      · rw [empty,List.length_nil] at size
        omega
      · have rest := first.rest empty
        by_cases stuck : n₁ = 0
        · have none_left : pending k.links (L.queue (.event q)) = 0 := by
            by_contra events
            refine progress (fun none_waits => empty ?_) events stuck
            rw [first.list,none_waits,List.drop_nil]
          omega
        · omega

theorem passes_end (here : At u L R k) (sound : Sound u L R) (m : Nat) :
    ∃ l M Q, passes m k = some l ∧ At u M Q l ∧
      (∀ s ∈ L.queue .bermudaRunQueue, s ∈ M.queue .bermudaRunQueue) := by
  induction m generalizing k L R with
  | zero => exact ⟨k,L,R,rfl,here,fun _ inside => inside⟩
  | succ m ih =>
    obtain ⟨l₁,M₁,Q₁,once,there,sound₁,run₁,-⟩ := pass_wakes here sound 0
    obtain ⟨l,M,Q,often,after,run⟩ := ih there sound₁
    refine ⟨l,M,Q,?_,after,fun s inside => run s (run₁ s inside)⟩
    rw [passes,once]
    exact often

/-- After this many passes one of the threads is in the run queue. -/
def Roused (ws : List Addr) (m : Nat) (k : Kernel) : Prop :=
  ∃ l ready, passes m k = some l ∧ Chain l.next (l.link .bermudaRunQueue) ready ∧ ∃ s ∈ ws, s ∈ ready

theorem At.ready (here : At u L R k) : Chain k.next (k.link .bermudaRunQueue) (L.queue .bermudaRunQueue) :=
  here.core.chain .bermudaRunQueue trivial here.core.runWord

theorem counted_wakes (here : At u L R k) (sound : Sound u L R) (list : L.queue (.event q) = ws)
    (events : counted k ws ≠ 0) (m : Nat) : Roused ws (m + 1) k := by
  have busy : ws ≠ [] := by
    rintro rfl
    exact events rfl
  obtain ⟨l₁,M₁,Q₁,once,there,sound₁,-,wakes⟩ := pass_wakes here sound q
  rw [list] at wakes
  obtain ⟨s,inside,run₁⟩ := wakes busy events
  obtain ⟨l,M,Q,often,after,run⟩ := passes_end there sound₁ m
  refine ⟨l,_,?_,after.ready,s,inside,run s run₁⟩
  rw [passes,once]
  exact often

theorem uncounted_sleeps (here : At u L R k) (sound : Sound u L R) (idle : k.bermudaSystemTick = k.tickResume)
    (list : L.queue (.event q) = ws) (none_left : counted k ws = 0) (m : Nat) : ¬Roused ws m k := by
  rintro ⟨l,ready,runs,chain,s,inside,runnable⟩
  obtain ⟨l₂,M,Q,n,runs₂,after,-,served,-⟩ := passes_served here sound idle q m
  obtain rfl : l₂ = l := Option.some_inj.mp (runs₂.symm.trans runs)
  obtain rfl := chain_unique chain after.ready
  have woken := served.enough.2
  rw [list,show pending k.links ws = 0 from none_left] at woken
  have queue := served.list
  rw [list,Nat.le_zero.mp woken,List.drop_zero] at queue
  cases after.core.alone (.event q) .bermudaRunQueue s (queue ▸ inside) runnable

end Passes

/-- The event queues in a state of a run. Only the first waiter of a queue has events
pending, but for a thread whose creation is under way; every step keeps count of them;
and passes turn each event that comes while threads wait into one wake-up. -/
structure EventsKept (u : Usage) (c : Config Kernel Addr Op Int) : Prop where
  first : ∀ t, Known c.state t → c.state.creating ≠ some t → (c.state.thread t).ec ≠ 0 →
    ∃ q us, Waiters c.state q (t::us)
  step : ∀ d, Step (scheduler u) c d → ∀ q, ∃ ws us, Waiters c.state q ws ∧ Waiters d.state q us ∧
    Counted c.state d.state q ws us
  served : c.call c.running = none → c.state.bermudaSystemTick = c.state.tickResume →
    ∀ q ws n m, ¬u.lock q → Waiters c.state q ws → c.state.link (.event q) ≠ signaled →
      counted c.state ws = 0 → n < 2^8 → min n ws.length ≤ m →
        ∃ l ready, passes m (raise q n c.state) = some l ∧
          Waiters l q (ws.drop (min n ws.length)) ∧
          Chain l.next (l.link .bermudaRunQueue) ready ∧ (∀ s ∈ ws.take (min n ws.length), s ∈ ready) ∧
          (l.link (.event q) = signaled ↔ ws.length < n)

theorem raise_ticks (q : Addr) (n : Nat) (k : Kernel) : ticks (raise q n k) = ticks k := by
  have once (k : Kernel) : ticks (bermudaEventSignalFromISR q k) = ticks k := by
    unfold bermudaEventSignalFromISR
    split
    · rfl
    · split <;> rfl
  induction n generalizing k with
  | zero => rfl
  | succ n ih => exact (ih _).trans (once k)

theorem raised_served {n m : Nat} (here : At u L R k) (sound : Sound u L R)
    (idle : k.bermudaSystemTick = k.tickResume) (unlocked : ¬u.lock q) (list : L.queue (.event q) = ws)
    (free : k.link (.event q) ≠ signaled) (zero : counted k ws = 0) (few : n < 2^8)
    (enough : min n ws.length ≤ m) : ∃ l ready, passes m (raise q n k) = some l ∧
      Waiters l q (ws.drop (min n ws.length)) ∧
      Chain l.next (l.link .bermudaRunQueue) ready ∧ (∀ s ∈ ws.take (min n ws.length), s ∈ ready) ∧
      (l.link (.event q) = signaled ↔ ws.length < n) := by
  obtain ⟨there,count,word⟩ := raise_counted here unlocked list free (n := n) (by omega)
  obtain ⟨tick,resume⟩ := Prod.mk.inj (raise_ticks q n k)
  have still : (raise q n k).bermudaSystemTick = (raise q n k).tickResume := by rw [tick,resume,idle]
  obtain ⟨l,M,Q,p,runs,after,_,served,progress⟩ := passes_served there sound still q m
  have left := served.list
  obtain ⟨inside,most⟩ := served.enough
  have last := served.last
  have woken := served.runs
  rw [list] at left inside most last woken progress
  have count (busy : ws ≠ []) : pending (raise q n k).links ws = n := by
    rw [show pending (raise q n k).links ws = _ from count busy,zero,Nat.zero_add]
  have waits := after.waiters q
  have run := after.core.chain .bermudaRunQueue trivial after.core.runWord
  -- all events woke someone, or all waiters were woken
  have chosen : p = min n ws.length := by
    by_cases empty : ws = []
    · subst empty
      simpa using inside
    · rw [count empty] at most progress
      omega
  rw [← chosen]
  refine ⟨l,_,runs,left ▸ waits,run,woken,?_⟩
  by_cases none_left : ws.drop p = []
  · rw [left] at last
    have final : l.link (.event q) = _ := last none_left
    rw [final]
    by_cases empty : ws = []
    · subst empty
      rw [if_pos rfl,show (raise q n k).links.link (.event q) = _ from word rfl]
      by_cases none_raised : n = 0
      · simp [none_raised,signaled]
      · simp [none_raised,Nat.pos_of_ne_zero none_raised]
    · have all : ws.length ≤ p := List.drop_eq_nil_iff.mp none_left
      rw [if_neg empty,count empty]
      by_cases exact_ : n = p
      · simp [exact_,signaled]
        omega
      · simp [exact_]
        omega
  · have busy : l.link (.event q) ≠ signaled := after.core.unsignaled trivial (left ▸ none_left)
    have more : p < ws.length := by
      by_contra all
      exact none_left (List.drop_eq_nil_iff.mpr (by omega))
    simp only [busy,false_iff]
    omega

theorem events_kept (gentle : Gentle u) (bounded : Bounded u)
    (reach : Reachable (scheduler u) (booted u) c) : EventsKept u c := by
  have good := kernel_good gentle reach
  obtain ⟨L,R,here⟩ := good_inv (kernel_verified gentle) good
  refine ⟨fun t known old events => ?_,fun d step q => ?_,?_⟩
  · have young : L.newborn ≠ some t := by
      rw [here.young,← here.rest]
      exact old
    obtain ⟨q,us,list⟩ := here.core.counts t (here.core.known_iff.mp known) young events
    exact ⟨q,us,list ▸ here.waiters q⟩
  · rcases good_step good step with same | irq | ⟨_,_,L,M,R,Q,stepped⟩
    · rw [same]
      exact ⟨_,_,here.waiters q,here.waiters q,.keep rfl rfl⟩
    · exact ⟨_,_,here.waiters q,(irq_at here irq).1.waiters q,irq_counted here bounded irq q⟩
    · exact ⟨_,_,stepped.before.waiters q,stepped.after.waiters q,(stepped.moved q).counted bounded⟩
  · intro idle still q ws n m unlocked waits free zero few enough
    obtain ⟨L,R,client⟩ := good.idle idle
    have list := Queued.unique (client.here.waiters q) waits
    exact raised_served client.here client.sound still unlocked list free zero few enough

/-- However many events interrupts signal, a pass wakes one of the waiters as long as the
counter has not come around to zero; then no pass does. -/
theorem raised_wakes (gentle : Gentle u) (reach : Reachable (scheduler u) (booted u) c) (idle : c.call c.running = none)
    (unlocked : ¬u.lock q) (waits : Waiters c.state q ws) (busy : ws ≠ []) (n : Nat) :
    ((counted c.state ws + n) % 2^8 ≠ 0 → ∀ m, Roused ws (m + 1) (raise q n c.state)) ∧
    (c.state.bermudaSystemTick = c.state.tickResume →
      ((∃ m, Roused ws m (raise q n c.state)) ↔ (counted c.state ws + n) % 2^8 ≠ 0)) := by
  obtain ⟨L,R,client⟩ := (kernel_good gentle reach).idle idle
  have list := Queued.unique (client.here.waiters q) waits
  have there := raise_at client.here unlocked n
  have count := raise_wraps client.here unlocked list busy n
  have wakes (events : (counted c.state ws + n) % 2^8 ≠ 0) (m : Nat) : Roused ws (m + 1) (raise q n c.state) :=
    counted_wakes there client.sound list (count ▸ events) m
  refine ⟨wakes,fun still => ⟨fun woken around => ?_,fun events => ⟨1,wakes events 0⟩⟩⟩
  obtain ⟨m,woken⟩ := woken
  obtain ⟨tick,resume⟩ := Prod.mk.inj (raise_ticks q n c.state)
  exact uncounted_sleeps there client.sound (by rw [tick,resume,still]) list (count.trans around) m woken

/-- Interrupts signal one event queue, while they can be counted. -/
def eventUsage : Usage where
  idle := 0x100
  lock _ := False
  raised q k := q = 0x20 ∧ ((k.link (.event q)).map fun t => (k.thread t).ec).getD 0 < 2^8 - 1
  notifies t k := (k.thread t).state = .waiting
  apart _ _ _ := id

instance : DecidablePred eventUsage.lock := fun _ => isFalse id

instance {q : Addr} {k : Kernel} : Decidable (eventUsage.raised q k) :=
  inferInstanceAs (Decidable (_ ∧ _))

instance {t : Addr} {k : Kernel} : Decidable (eventUsage.notifies t k) :=
  inferInstanceAs (Decidable (_ = _))

/-- Two threads wait, and an event has come for them. -/
def eventConfig : Config Kernel Addr Op Int :=
  perform eventUsage [.call (.bermudaThreadCreate 0x200 ['M','A','I','N'] 150) 40,
    .call (.bermudaThreadCreate 0x300 ['A'] 100) 40,.call .bermudaThreadYield 80,
    .call (.bermudaEventWait 0x20 0) 100,.call (.bermudaEventWait 0x20 0) 100,.event 0x20]
    (bootConfig eventUsage [] 0x500)

theorem eventUsage_gentle : Gentle eventUsage := by
  rintro t k (waits : (k.thread t).state = .waiting)
  simp [waits]

theorem eventConfig_reachable : Reachable (scheduler eventUsage) (booted eventUsage) eventConfig := by
  have start : booted eventUsage (bootConfig eventUsage [] 0x500) :=
    bootConfig_booted (by decide) fun q => by simp [eventUsage]
  exact perform_reachable (.init start) (by decide +kernel)

theorem events_kept_two : EventsKept eventUsage eventConfig ∧
    (eventConfig.state.thread 0x300).ec = 1 ∧ (eventConfig.state.thread 0x200).ec = 0 := by
  have bounded : Bounded eventUsage := by
    rintro q k t ⟨_,room⟩ word
    rw [word] at room
    exact room
  exact ⟨events_kept eventUsage_gentle bounded eventConfig_reachable,by decide +kernel,by decide +kernel⟩

theorem eventConfig_waiters : Waiters eventConfig.state 0x20 [0x300,0x200] := by
  have first : eventConfig.state.link (.event 0x20) = some 0x300 := by decide +kernel
  have second : eventConfig.state.next 0x300 = some 0x200 := by decide +kernel
  have last : eventConfig.state.next 0x200 = none := by decide +kernel
  exact .inr ⟨by rw [first]; decide,first,second,last⟩

theorem raised_wakes_two : Roused [0x300,0x200] 1 (raise 0x20 1 eventConfig.state) :=
  (raised_wakes eventUsage_gentle eventConfig_reachable (by decide +kernel) id eventConfig_waiters (by simp) 1).1
    (by decide +kernel) 0

/-- The 256th event makes the counter zero again. -/
theorem raised_sleeps : Reachable (scheduler eventUsage) (booted eventUsage) eventConfig ∧
    Waiters eventConfig.state 0x20 [0x300,0x200] ∧ counted eventConfig.state [0x300,0x200] = 1 ∧
    counted (raise 0x20 255 eventConfig.state) [0x300,0x200] = 0 ∧
    ∀ m, ¬Roused [0x300,0x200] m (raise 0x20 255 eventConfig.state) := by
  have idle : eventConfig.call eventConfig.running = none := by decide +kernel
  obtain ⟨L,R,client⟩ := (kernel_good eventUsage_gentle eventConfig_reachable).idle idle
  have list := Queued.unique (client.here.waiters 0x20) eventConfig_waiters
  have one : counted eventConfig.state [0x300,0x200] = 1 := by decide +kernel
  have around : counted (raise 0x20 255 eventConfig.state) [0x300,0x200] = 0 := by
    have count := raise_wraps client.here id list (by simp) 255
    rw [one] at count
    exact count
  obtain ⟨tick,resume⟩ := Prod.mk.inj (raise_ticks 0x20 255 eventConfig.state)
  have still : eventConfig.state.bermudaSystemTick = eventConfig.state.tickResume := by decide +kernel
  exact ⟨eventConfig_reachable,eventConfig_waiters,one,around,
    uncounted_sleeps (raise_at client.here id 255) client.sound (by rw [tick,resume,still]) list around⟩

end BermudaOS.Sys.Sched
