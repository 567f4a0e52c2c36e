import BermudaOS.Sys.SchedCore

/-! The scheduler as a system of threads. Threads make kernel calls in any order
that the kernel's own rules allow; interrupts signal event queues, advance the
system tick and decide which block the heap hands out next. -/
namespace BermudaOS.Sys.Sched
open VirtTimer Lib.Chains Lib.Program

/-- How the kernel is used: which event queues are locks, when interrupts signal a
queue, and which threads may be notified. -/
structure Usage where
  idle : Addr
  lock : Addr → Prop
  raised : Addr → Kernel → Prop
  notifies : Addr → Kernel → Prop
  apart : ∀ q k, raised q k → ¬lock q

inductive Irq (u : Usage) : Kernel → Kernel → Prop
  | event {k : Kernel} (q : Addr) (raised : u.raised q k) : Irq u k (bermudaEventSignalFromISR q k)
  | tick {k : Kernel} :
      Irq u k {k with bermudaSystemTick := (k.bermudaSystemTick + 1) % 2^32}
  | heap {k : Kernel} (a : Addr) : Irq u k {k with heapNext := a}

inductive Op
  | bermudaThreadCreate (t : Addr) (name : List Char) (prio : Nat)
  | bermudaThreadSleep (ms : Nat)
  | bermudaThreadSetPrio (prio : Nat)
  | bermudaThreadYield
  | bermudaThreadWait
  | bermudaThreadNotify (t : Option Addr)
  | bermudaThreadExit
  | bermudaEventWait (q : Addr) (tmo : Nat)
  | bermudaEventWaitNext (q : Option Addr) (tmo : Nat)
  | bermudaEventSignal (q : Addr)
  deriving DecidableEq,Repr

def body : Op → Code Int
  | .bermudaThreadCreate t name prio => do bermudaThreadCreate t name prio; return 0
  | .bermudaThreadSleep ms => do bermudaThreadSleep ms; return 0
  | .bermudaThreadSetPrio prio => bermudaThreadSetPrio prio
  | .bermudaThreadYield => do bermudaThreadYield; return 0
  | .bermudaThreadWait => do bermudaThreadWait; return 0
  | .bermudaThreadNotify t => do bermudaThreadNotify t; return 0
  | .bermudaThreadExit => do bermudaThreadExit; return 0
  | .bermudaEventWait q tmo => bermudaEventWait q tmo
  | .bermudaEventWaitNext q tmo => bermudaEventWaitNext q tmo
  | .bermudaEventSignal q => bermudaEventSignal q

/-- The event queue in which the call may wait. -/
def Op.waits : Op → Option Addr
  | .bermudaEventWait q _ => some q
  | .bermudaEventWaitNext q _ => q
  | _ => none

/-- The event queue that the call signals. -/
def Op.signals : Op → Option Addr
  | .bermudaEventSignal q => some q
  | _ => none

/-- The thread is in the total list. -/
def Known (k : Kernel) (t : Addr) : Prop :=
  ∃ ts, Chain k.qNext (k.link .bermudaThreadHead) ts ∧ t ∈ ts

/-- What a thread may call. The idle thread must stay ready; a thread is created in
memory of its own; no thread exits; a lock is given back by its owner. -/
def allowed (u : Usage) (i : Addr) (op : Op) (k : Kernel) : Prop :=
  match op with
  | .bermudaThreadCreate t _ _ => t ≠ nowhere ∧ ¬Known k t
  | .bermudaThreadSleep _ => i ≠ u.idle
  | .bermudaThreadSetPrio prio => i ≠ u.idle ∧ prio < bermudaLowestPrio
  | .bermudaThreadYield => True
  | .bermudaThreadWait => i ≠ u.idle
  | .bermudaThreadNotify t => ∀ s, t = some s → Known k s ∧ u.notifies s k
  | .bermudaThreadExit => False
  | .bermudaEventWait _ _ => i ≠ u.idle
  | .bermudaEventWaitNext q _ => i ≠ u.idle ∧ ∀ o, q = some o → ¬u.lock o
  | .bermudaEventSignal q => u.lock q → i ∈ k.owners q

/-- `BermudaStackSave`, by which the head of the run queue becomes the running thread. -/
def bermudaStackSave (k : Kernel) : Kernel :=
  match k.link .bermudaRunQueue with
  | some t => {k with bermudaCurrentThread := t}.setState t .running
  | none => k

def scheduler (u : Usage) : System Kernel Addr Op Int where
  interrupt := Irq u
  allowed := allowed u
  body := body
  target k := (k.link .bermudaRunQueue).getD k.bermudaCurrentThread
  swap := bermudaStackSave

/-- No interrupt ever signals the queue. -/
def Quiet (u : Usage) (q : Addr) : Prop := ∀ k, ¬u.raised q k

/-- Never more than 255 events are pending on a queue. -/
def Bounded (u : Usage) : Prop := ∀ q k t, u.raised q k → k.link (.event q) = some t →
  (k.thread t).ec < 2^8 - 1

/-- What interrupts leave of the links. -/
structure Calm (u : Usage) (x y : Links) : Prop where
  link : ∀ r, (∀ q, r ≠ .event q) → y.link r = x.link r
  event : ∀ q, y.link (.event q) = x.link (.event q) ∨
    ¬Quiet u q ∧ x.link (.event q) = none ∧ y.link (.event q) = signaled
  ec : ∀ t, y.ec t = x.ec t ∨ t ≠ nowhere ∧ ∃ q, ¬Quiet u q ∧ x.link (.event q) = some t
  grow : Bounded u → ∀ t, x.ec t ≤ y.ec t
  prio : y.prio = x.prio
  queue : y.queue = x.queue
  owners : y.owners = x.owners
  arrived : y.arrived = x.arrived
  clock : y.clock = x.clock

variable {u : Usage}

theorem Calm.refl (x : Links) : Calm u x x :=
  ⟨fun _ _ => rfl,fun _ => .inl rfl,fun _ => .inl rfl,fun _ _ => le_rfl,rfl,rfl,rfl,rfl,rfl⟩

theorem Calm.trans {x y z : Links} (first : Calm u x y) (second : Calm u y z) : Calm u x z := by
  refine ⟨fun r other => (second.link r other).trans (first.link r other),fun q => ?_,fun t => ?_,
    fun bounded t => (first.grow bounded t).trans (second.grow bounded t),
    second.prio.trans first.prio,second.queue.trans first.queue,second.owners.trans first.owners,
    second.arrived.trans first.arrived,second.clock.trans first.clock⟩
  · rcases first.event q with same | ⟨noisy,free,signal⟩
    · rw [← same]
      exact second.event q
    · rcases second.event q with same | ⟨_,_,again⟩
      · exact .inr ⟨noisy,free,same.trans signal⟩
      · exact .inr ⟨noisy,free,again⟩
  · rcases second.ec t with same | ⟨real,q,noisy,head⟩
    · rw [same]
      exact first.ec t
    · refine .inr ⟨real,q,noisy,?_⟩
      rcases first.event q with same | ⟨_,_,signal⟩
      · exact same ▸ head
      · exact absurd (Option.some.inj (head.symm.trans signal)) real

/-- The lists, and all that the queue functions leave alone. -/
structure At (u : Usage) (L : Lists) (R : Rest) (k : Kernel) : Prop where
  core : Core u.lock k.links L
  rest : k.rest = R
  young : L.newborn = R.creating

theorem event_core {L : Lists} {q : Addr} {k : Kernel} (core : Core u.lock k.links L)
    (unlocked : ¬u.lock q) : Core u.lock (bermudaEventSignalFromISR q k).links L := by
  have queue : IsQueue (.event q) := trivial
  unfold bermudaEventSignalFromISR
  rcases core.head queue with ⟨signal,_⟩ | ⟨busy,head⟩
  · have word : k.link (.event q) = signaled := signal
    rw [word]
    exact core
  · have word : k.link (.event q) = (L.queue (.event q)).head? := head
    have free : k.link (.event q) ≠ signaled := busy
    rw [word]
    rw [word] at free
    cases list : L.queue (.event q) with
    | nil =>
      exact core_word core list (.inr rfl) rfl rfl rfl rfl rfl rfl (fun _ _ => rfl)
        fun locked => absurd locked unlocked
    | cons t rest =>
      rw [list] at free
      simp only [List.head?_cons] at free ⊢
      rw [if_neg free]
      exact core_count core list unlocked (Nat.mod_lt _ (by decide)) (Kernel.links_setEc k t _)

theorem event_calm {q : Addr} {k : Kernel} (raised : u.raised q k) :
    Calm u k.links (bermudaEventSignalFromISR q k).links ∧
      (bermudaEventSignalFromISR q k).rest = k.rest := by
  have noisy : ¬Quiet u q := fun quiet => quiet k raised
  unfold bermudaEventSignalFromISR
  cases word : k.link (.event q) with
  | none =>
    refine ⟨⟨fun r other => ?_,fun o => ?_,fun _ => .inl rfl,fun _ _ => le_rfl,rfl,rfl,rfl,rfl,rfl⟩,rfl⟩
    · exact Function.update_of_ne (other q) _ _
    · by_cases same : o = q
      · subst same
        exact .inr ⟨noisy,word,Function.update_self _ _ _⟩
      · exact .inl (Function.update_of_ne (by simpa using same) _ _)
  | some t =>
    dsimp only
    split
    · exact ⟨Calm.refl _,rfl⟩
    · next real =>
      refine ⟨?_,Kernel.rest_setEc k t _⟩
      rw [Kernel.links_setEc]
      refine ⟨fun _ _ => rfl,fun _ => .inl rfl,fun s => ?_,fun bounded s => ?_,rfl,rfl,rfl,rfl,rfl⟩
      · by_cases same : s = t
        · subst same
          exact .inr ⟨fun last => real (congrArg some last),q,noisy,word⟩
        · exact .inl (Function.update_of_ne same _ _)
      · by_cases same : s = t
        · subst same
          have room := bounded q k s raised word
          simp only [Function.update_self]
          change (k.thread s).ec ≤ _
          omega
        · exact le_of_eq (Function.update_of_ne same _ _).symm

theorem irq_at {L : Lists} {R : Rest} {k l : Kernel} (here : At u L R k) (irq : Irq u k l) :
    At u L R l ∧ Calm u k.links l.links := by
  cases irq with
  | event q raised =>
    obtain ⟨calm,rest⟩ := event_calm raised
    exact ⟨⟨event_core here.core (u.apart q k raised),rest.trans here.rest,here.young⟩,calm⟩
  | tick => exact ⟨⟨here.core,here.rest,here.young⟩,Calm.refl _⟩
  | heap a => exact ⟨⟨here.core,here.rest,here.young⟩,Calm.refl _⟩

theorem irqs_at {L : Lists} {R : Rest} {k l : Kernel} (here : At u L R k)
    (irqs : Relation.ReflTransGen (Irq u) k l) : At u L R l ∧ Calm u k.links l.links := by
  induction irqs with
  | refl => exact ⟨here,Calm.refl _⟩
  | tail _ irq ih =>
    obtain ⟨there,calm⟩ := irq_at ih.1 irq
    exact ⟨there,ih.2.trans calm⟩

/-- An action of a call takes, gives or joins only the queue that the call is about. -/
structure Within (u : Usage) (op : Op) (me : Addr) (L M : Lists) (R Q : Rest) : Prop where
  takes : ∀ q, u.lock q → R.owners q = [] → Q.owners q ≠ [] → op.waits = some q
  gives : ∀ q, u.lock q → R.owners q ≠ [] → Q.owners q ≠ R.owners q → op.signals = some q
  joins : ∀ q, me ∉ L.queue (.event q) → me ∈ M.queue (.event q) → op.waits = some q

theorem within_same {op : Op} {me : Addr} {L M : Lists} {R Q : Rest} (owners : Q.owners = R.owners)
    (stays : ∀ q, me ∈ M.queue (.event q) → me ∈ L.queue (.event q)) : Within u op me L M R Q := by
  refine ⟨fun q _ free taken => ?_,fun q _ _ changed => ?_,fun q out inside => absurd (stays q inside) out⟩
  · rw [owners] at taken
    exact absurd free taken
  · rw [owners] at changed
    exact absurd rfl changed

/-- One action of the thread `me`, in the call `op`. -/
structure Stepped (u : Usage) (op : Op) (me : Addr) (L M : Lists) (R Q : Rest) (k l : Kernel) : Prop where
  before : At u L R k
  after : At u M Q l
  moved : ∀ q, Moved (Bounded u) me k.links l.links q (L.queue (.event q)) (M.queue (.event q))
  waiting : ∀ t, t ≠ me → Q.waiting t = R.waiting t
  settled : ∀ t, t ≠ me → Q.settled t = R.settled t
  ended : ∀ t, t ≠ me → R.thTimer t = none ∨ R.thTimer t = signaled → Q.thTimer t = R.thTimer t
  within : Within u op me L M R Q

/-- A thread that has a timer is none of those whose wait is over. -/
theorem timer_kept {R : Rest} {s t a : Addr} {timer : Option Addr} (real : a ≠ nowhere)
    (own : R.thTimer t = some a) (past : R.thTimer s = none ∨ R.thTimer s = signaled) :
    Function.update R.thTimer t timer s = R.thTimer s := by
  apply Function.update_of_ne
  rintro rfl
  rw [own] at past
  rcases past with none | last
  · cases none
  · exact real (Option.some.inj last)

/-- A contract that every action that keeps the core meets. -/
structure Follows {π : Type} (u : Usage) (op : Op) (me : Addr) (C : Contract Kernel Addr Op Int π) :
    Prop where
  inv : ∀ L R k, At u L R k → C.inv k
  step : ∀ L M R Q k l, Stepped u op me L M R Q k l → C.step op me k l

section Rules

variable {π α : Type} {C : Contract Kernel Addr Op Int π} {op : Op} {me : Addr} {L M : Lists} {R Q : Rest}
  {k : Kernel}

theorem meets_at {read : Kernel → α} {update : Kernel → Kernel} {post : α → Kernel → Prop}
    (follows : Follows u op me C) (here : At u L R k)
    (next : ∀ l, At u L R l → Calm u k.links l.links →
      (∃ M Q, Stepped u op me L M R Q l (update l)) ∧ post (read l) (update l)) :
    Meets (scheduler u) C op me (.access update read) post k := by
  refine meets_access (follows.inv L R k here) fun l irqs => ?_
  obtain ⟨there,calm⟩ := irqs_at here irqs
  obtain ⟨⟨M,Q,stepped⟩,holds⟩ := next l there calm
  exact ⟨follows.step L M R Q l _ stepped,holds⟩

theorem stepped_same (here : At u L R k) : Stepped u op me L L R R k k :=
  ⟨here,here,fun _ => moved_keep rfl rfl rfl,fun _ _ => rfl,fun _ _ => rfl,fun _ _ _ => rfl,
    within_same rfl fun _ inside => inside⟩

theorem meets_get {read : Kernel → α} {post : α → Kernel → Prop} (follows : Follows u op me C)
    (here : At u L R k) (next : ∀ l, At u L R l → Calm u k.links l.links → post (read l) l) :
    Meets (scheduler u) C op me (.get read) post k :=
  meets_at follows here fun l there calm => ⟨⟨L,R,stepped_same there⟩,next l there calm⟩

theorem meets_rest {read : Kernel → α} {update : Kernel → Kernel} {post : α → Kernel → Prop}
    (follows : Follows u op me C) (here : At u L R k) (creating : Q.creating = R.creating)
    (links : ∀ l, (update l).links = l.links)
    (rest : ∀ l, l.rest = R → (update l).rest = Q) (waiting : ∀ t, t ≠ me → Q.waiting t = R.waiting t)
    (settled : ∀ t, t ≠ me → Q.settled t = R.settled t)
    (ended : ∀ t, t ≠ me → R.thTimer t = none ∨ R.thTimer t = signaled → Q.thTimer t = R.thTimer t)
    (next : ∀ l, l.rest = R → At u L Q (update l) → Calm u k.links l.links →
      post (read l) (update l)) :
    Meets (scheduler u) C op me (.access update read) post k := by
  refine meets_at follows here fun l there calm => ?_
  have moved : At u L Q (update l) := ⟨(links l).symm ▸ there.core,rest l there.rest,
    there.young.trans creating.symm⟩
  have owners : Q.owners = R.owners := by
    have after : (update l).links.owners = Q.owners := congrArg Rest.owners moved.rest
    have before : l.links.owners = R.owners := congrArg Rest.owners there.rest
    rw [← after,links l,before]
  refine ⟨⟨L,Q,there,moved,fun q => ?_,waiting,settled,ended,within_same owners fun _ inside => inside⟩,
    next l there.rest moved calm⟩
  rw [links l]
  exact moved_keep rfl rfl rfl

end Rules

end BermudaOS.Sys.Sched
