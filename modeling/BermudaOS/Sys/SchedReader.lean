import BermudaOS.Sys.SchedTokens

/-! One thread waits in a queue that only interrupts signal. Once its call of
`BermudaEventWaitNext` has discarded an old signal, it misses no later one. -/
namespace BermudaOS.Sys.Sched
open VirtTimer Lib.Chains Lib.Program

variable {u : Usage} {L : Lists} {R : Rest} {k l : Kernel} {q x : Addr} {α : Type}

/-- The program has yet to join the queue or to take the event that is pending on it. -/
def Enters (u : Usage) (q : Addr) : Code Int → Kernel → Prop
  | .step update next,k => ∀ l, Relation.ReflTransGen (counting u q).interrupt k l →
      (tokens u q .enters).ok l → (tokens u q .enters).after (update l) → (update l).creating = none ∧
        (Kept q .enters l (update l) (next l) ∧ Enters u q (next l) (update l) ∨
          (Pending q (update l) → Pending q l) ∧ (Pending q l → Joined q (update l) → Pending q (update l)) ∧
            Mild u q .plain (next l))
  | p,_ => Mild u q .plain p

section Entering

theorem enters_irq {p : Code Int} (enters : Enters u q p k) (irq : (counting u q).interrupt k l) :
    Enters u q p l := by
  cases p with
  | step update next => exact fun m irqs => enters m (.head irq irqs)
  | _ => exact enters

theorem enters_bind {p : Code α} {f : α → Code Int} (minds : Minds u q .enters p (fun a l => Enters u q (f a) l) k)
    (straight : Watch.Steady (fun _ => ()) p) : Enters u q (p >>= f) k := by
  change Enters u q (p.bind f) k
  induction p generalizing k with
  | ret a => exact minds
  | fault | exit => exact fun _ => trivial
  | step update next ih =>
    intro l irqs known after
    obtain ⟨kept,rest⟩ := minds l irqs known after
    have onward := (tokens u q .enters).onward f kept
    exact ⟨onward.2 (by simp),.inl ⟨onward.1,ih l rest (straight l).2⟩⟩
  | switch next => exact straight.elim

theorem irq_unjoined (irq : Irq u k l) (out : ¬Joined q k) : ¬Joined q l := by
  have word : l.link (.event q) = k.link (.event q) ∨ l.link (.event q) = signaled := by
    cases irq with
    | event p raised =>
      rcases (event_calm raised).1.event q with same | ⟨_,_,signal⟩
      · exact .inl same
      · exact .inr signal
    | tick => exact .inl rfl
    | heap a => exact .inl rfl
  intro joined
  rcases word with same | signal
  · apply out
    unfold Joined at joined ⊢
    rwa [same] at joined
  · exact joined.2 signal

theorem counted_unjoined (irqs : Relation.ReflTransGen (counting u q).interrupt k l) (out : ¬Joined q k) :
    ¬Joined q l := by
  induction irqs with
  | refl => exact out
  | tail _ irq ih => exact irq_unjoined irq.1 ih

theorem counted_current (irqs : Relation.ReflTransGen (counting u q).interrupt k l) :
    l.bermudaCurrentThread = k.bermudaCurrentThread := by
  induction irqs with
  | refl => rfl
  | tail _ irq ih =>
    refine Eq.trans ?_ ih
    cases irq.1 with
    | event p raised => exact congrArg Rest.current (event_calm raised).2
    | tick => rfl
    | heap a => rfl

theorem unjoined_word (out : ¬Joined q k) (busy : k.link (.event q) ≠ signaled) : k.link (.event q) = none := by
  by_contra linked
  exact out ⟨linked,busy⟩

theorem kept_unjoined {mode : Mode} {p : Code α} (out : ¬Joined q k)
    (word : l.link (.event q) = k.link (.event q)) : Kept q mode k l p := by
  apply kept_still word
  intro t real first
  refine absurd ⟨?_,?_⟩ out
  · simp [first]
  · intro signal
    exact real (Option.some.inj (first.symm.trans signal))

/-- A thread that is linked in no queue joins this one, where it finds no other. -/
theorem enters_add {f : Unit → Code Int} (out : ¬Joined q k) (real : x ≠ nowhere)
    (rest : Mild u q .plain (f ())) : Enters u q (bermudaThreadPrioQueueAdd (.event q) x >>= f) k := by
  unfold bermudaThreadPrioQueueAdd
  rw [Prog.bind_assoc]
  apply enters_bind _ (Watch.steady_access fun _ => rfl)
  apply minds_act fun _ _ => rfl
  intro L R l there _ after irqs
  have before := counted_unjoined irqs out
  refine ⟨kept_unjoined before rfl,?_⟩
  have away : ¬Joined q (((l.setEc x 0).setQueue x (some (.event q))).stamp x) := before
  obtain ⟨M,Q,now⟩ := after
  set m := ((l.setEc x 0).setQueue x (some (.event q))).stamp x with hm
  have zero : m.links.ec x = 0 := by
    rw [hm]
    simp [Kernel.links,Kernel.stamp,Kernel.setQueue,Kernel.setEc,Kernel.setThread]
  have own : (m.thread x).queue = some (.event q) := by
    simp [hm,Kernel.setEc,Kernel.setQueue,Kernel.stamp,Kernel.setThread]
  clear_value m
  rw [Prog.bind_assoc]
  intro l₂ irqs₂ known after
  obtain ⟨there₂,calm₂⟩ := counted_at now irqs₂
  have out₂ : ¬Joined q l₂ := counted_unjoined irqs₂ away
  -- an interrupt adds an event to a first waiter, which the thread is not
  have still : (l₂.thread x).ec = 0 := by
    rcases calm₂.ec x with same | ⟨_,p,_,first⟩
    · exact same.trans zero
    · obtain ⟨_,_,queue⟩ := head_queue now real first
      obtain rfl := Ref.event.inj (Option.some.inj (own.symm.trans queue))
      refine absurd ⟨?_,fun signal => ?_⟩ away
      · exact fun empty => by simpa using first.symm.trans empty
      · exact real (Option.some.inj (first.symm.trans signal))
  refine ⟨enterQueue_creating.trans (known.2 (by simp)),.inr ?_⟩
  by_cases signal : l₂.link (.event q) = signaled
  · refine ⟨fun _ => .inl signal,fun _ _ => .inr ⟨x,?_⟩,?_⟩
    · unfold enterQueue
      rw [if_pos signal]
      unfold place
      simp [Kernel.next,Kernel.setLink,Kernel.setEc,Kernel.setThread,still]
    · change Mild u q .plain (Prog.bind (if l₂.link (.event q) = signaled ∨ l₂.link (.event q) = none then _ else _) f)
      rw [if_pos (.inl signal)]
      exact rest
  · have empty := unjoined_word out₂ signal
    have word : ¬Pending q l₂ := by
      rintro (last | ⟨t,first,_⟩)
      · exact signal last
      · exact absurd (empty.symm.trans first) (by simp)
    refine ⟨fun pending => ?_,fun pending => absurd pending word,?_⟩
    · unfold enterQueue at pending
      rw [if_neg signal,if_pos empty] at pending
      unfold place at pending
      simp [Pending,Kernel.next,Kernel.setLink,still,signaled,real] at pending
    · change Mild u q .plain (Prog.bind (if l₂.link (.event q) = signaled ∨ l₂.link (.event q) = none then _ else _) f)
      rw [if_pos (.inr empty)]
      exact rest

theorem straight_remove {r : Ref} : Watch.Steady (fun _ => ()) (bermudaThreadQueueRemove r x) := by
  unfold bermudaThreadQueueRemove
  apply Watch.steady_bind (Watch.steady_access fun _ => rfl)
  intro word
  split
  · trivial
  · apply Watch.steady_bind (Watch.steady_access fun _ => rfl)
    intro walk
    split
    · trivial
    · trivial
    · apply Watch.steady_bind (f := fun _ => ())
      · exact Watch.steady_access fun _ => rfl
      · exact fun _ => Watch.steady_access fun _ => rfl

theorem minds_remove {mode : Mode} (out : ¬Joined q k) :
    Minds u q mode (bermudaThreadQueueRemove .bermudaRunQueue x) (fun _ l => ¬Joined q l) k := by
  have mild : Mild u q mode (bermudaThreadQueueRemove .bermudaRunQueue x) := mild_remove
  have kept := Watch.heeds_keep (mild k) straight_remove
    (fun s t irq => irq_unjoined irq.1) (fun s t p kept away joined => away (kept.1.joined joined)) out
  exact Watch.heeds_mono kept fun _ _ holds => holds.2

/-- `BermudaEventWait` takes the event that is pending on the queue, or joins it. -/
theorem enters_wait (real : k.bermudaCurrentThread ≠ nowhere) (out : ¬Joined q k) (tmo : Nat) :
    Enters u q (bermudaEventWait q tmo) k := by
  unfold bermudaEventWait
  apply enters_bind _ (Watch.steady_access fun _ => rfl)
  apply minds_first
  intro L R l here _ irqs
  have outside := counted_unjoined irqs out
  apply enters_bind _ (Watch.steady_access fun _ => rfl)
  apply minds_get here
  intro l₂ there irqs₂ calm
  have outside₂ := counted_unjoined irqs₂ outside
  have running : l₂.bermudaCurrentThread ≠ nowhere := by
    rw [counted_current irqs₂,counted_current irqs]
    exact real
  split
  · next signal =>
    intro l₃ irqs₃ known after
    obtain ⟨_,calm₃⟩ := counted_at there irqs₃
    have word : (((l₃.setLink (.event q) none).take q l₂.bermudaCurrentThread).setSettled
        l₂.bermudaCurrentThread (some (q,true))).link (.event q) = none := Function.update_self _ _ _
    refine ⟨known.2 (by simp),.inr ⟨fun pending => ?_,fun _ joined => absurd word joined.1,mild_taken⟩⟩
    rcases pending with last | ⟨t,first,_⟩
    · exact absurd (word.symm.trans last) (by simp [signaled])
    · exact absurd (word.symm.trans first) (by simp)
  · next signal =>
    apply enters_bind _ straight_remove
    apply Watch.heeds_mono (minds_remove outside₂)
    intro _ l₃ away
    exact enters_add away running (mild_linked _ tmo)

end Entering

section Posting

theorem elsewhere_pending {p : Addr} (here : At u L R k) (other : p ≠ q) :
    Pending q (bermudaEventSignalFromISR p k) ↔ Pending q k := by
  have away : Ref.event q ≠ .event p := by simpa using Ne.symm other
  unfold bermudaEventSignalFromISR
  split
  · have word : (k.setLink (.event p) signaled).link (.event q) = k.link (.event q) :=
      Function.update_of_ne away _ _
    exact (pending_still word fun _ _ _ => rfl).1
  · next t word =>
    split
    · exact Iff.rfl
    · next busy =>
      have real : t ≠ nowhere := fun last => busy (congrArg some last)
      obtain ⟨us,list,_⟩ := head_queue here real word
      have word : (k.setEc t (((k.thread t).ec + 1) % 2^8)).link (.event q) = k.link (.event q) := rfl
      refine (pending_still word fun s own first => ?_).1
      have apart : s ≠ t := head_other here (r := .event p) (by simp [list]) (Ne.symm away) own first
      exact congrArg Thread.ec (Function.update_of_ne apart _ _)

theorem signal_pending (free : ¬Pending q k) : Pending q (bermudaEventSignalFromISR q k) := by
  unfold bermudaEventSignalFromISR
  split
  · exact .inl (Function.update_self _ _ _)
  · next t word =>
    split
    · next last => exact .inl (word.trans last)
    · have zero : (k.thread t).ec = 0 := by
        by_contra events
        exact free (.inr ⟨t,word,events⟩)
      refine .inr ⟨t,word,?_⟩
      simp [Kernel.setEc,Kernel.setThread,zero]

end Posting

section Runs

variable {me : Addr} {c d : Config Kernel Addr Op Int} {b : Call Kernel Op Int} {spent later : Prop}

/-- An event is pending on the queue, or the running thread is about to wake the first
waiter with it. -/
def Held (q : Addr) (c : Config Kernel Addr Op Int) : Prop :=
  Pending q c.state ∨ ∃ b, c.call c.running = some b ∧ Delivering q c.state b.rest

/-- How far the call of the reader is, where `spent` says whether the event it waits for
was signaled. -/
inductive Progress (u : Usage) (q me : Addr) (spent : Prop) (c : Config Kernel Addr Op Int)
    (b : Call Kernel Op Int) : Prop
  | before (running : c.running = me) (real : c.state.bermudaCurrentThread ≠ nowhere)
      (start : b.rest = body b.op) (out : ¬Joined q c.state) (unspent : ¬spent)
  | entering (running : c.running = me) (enters : Enters u q b.rest c.state) (word : Pending q c.state ↔ spent)
  | aside (tracked : (tokens u q .plain).Tracked (counting u q) c me b.rest)
      (early : Pending q c.state → spent) (late : spent → Joined q c.state → Held q c)

/-- All calls are about other queues, but those by which the reader waits. -/
def Only (q me : Addr) (c : Config Kernel Addr Op Int) : Prop :=
  ∀ i b, c.call i = some b → b.op.waits ≠ some q ∧ b.op.signals ≠ some q ∨
    i = me ∧ ∃ tmo, b.op = .bermudaEventWaitNext (some q) tmo

structure Reading (u : Usage) (q me : Addr) (spent : Prop) (c : Config Kernel Addr Op Int) : Prop where
  young : ∀ b, c.call c.running = some b → b.op.mode ≠ .creates → c.state.creating = none
  others : ∀ i b, c.call i = some b → b.op.waits ≠ some q → b.op.signals ≠ some q →
    (tokens u q b.op.mode).Tracked (counting u q) c i b.rest
  progress : ∀ b, c.call me = some b → b.op.waits = some q → Progress u q me spent c b

theorem joined_reader (gentle : Gentle u) (reach : Reachable (scheduler u) (booted u) c) (only : Only q me c)
    {ws : List Addr} (waiters : Waiters c.state q ws) (inside : x ∈ ws) :
    x = me ∧ ∃ b, c.call me = some b ∧ b.op.waits = some q := by
  obtain ⟨op,⟨b,call,rfl⟩,waits⟩ := waiter_calling gentle reach waiters inside
  rcases only x b call with ⟨other,_⟩ | ⟨rfl,tmo,_⟩
  · exact absurd waits other
  · exact ⟨rfl,b,call,waits⟩

theorem joined_waiters (here : At u L R k) (joined : Joined q k) : ∃ t us, L.queue (.event q) = t::us ∧
    k.link (.event q) = some t := by
  rcases here.core.head (r := .event q) trivial with ⟨signal,_⟩ | ⟨_,head⟩
  · exact absurd signal joined.2
  · have word : k.link (.event q) = (L.queue (.event q)).head? := head
    cases list : L.queue (.event q) with
    | nil =>
      rw [list] at word
      exact absurd word joined.1
    | cons t us =>
      rw [list] at word
      exact ⟨t,us,rfl,word⟩

theorem joined_alone (gentle : Gentle u) (reach : Reachable (scheduler u) (booted u) c) (only : Only q me c)
    (here : At u L R c.state) (joined : Joined q c.state) : L.queue (.event q) = [me] := by
  obtain ⟨t,us,list,word⟩ := joined_waiters here joined
  have own {x : Addr} (inside : x ∈ L.queue (.event q)) : x = me :=
    (joined_reader gentle reach only (here.waiters q) inside).1
  have chain := here.core.chain (.event q) trivial joined.2
  have distinct := chain_nodup chain
  obtain rfl : t = me := own (by simp [list])
  cases us with
  | nil => exact list
  | cons s us =>
    obtain rfl : s = t := own (by simp [list])
    rw [list] at distinct
    simp at distinct

/-- After its last action `BermudaEventSignalRaw` has woken the only waiter. -/
theorem delivering_step {update : Kernel → Kernel} {next : Kernel → Code Int} (here : At u L R k)
    (alone : L.queue (.event q) = [x]) (delivering : Delivering q k (.step update next))
    (joined : Joined q (update k)) : Delivering q (update k) (next k) := by
  have first : k.link (.event q) = some x := here.core.first (r := .event q) trivial alone
  have busy : k.link (.event q) ≠ signaled := here.core.unsignaled (r := .event q) trivial (by simp [alone])
  generalize shape : Prog.step update next = p at delivering
  cases delivering with
  | signal f =>
    change _ = Prog.step _ _ at shape
    obtain ⟨rfl,rfl⟩ := Prog.step.inj shape
    change Delivering q k (Prog.bind (if k.link (.event q) = signaled then pure (-1) else _) f)
    rw [if_neg busy]
    beta_reduce
    rw [first]
    exact (Delivering.detach x _ first).onward f
  | detach t f word =>
    change _ = Prog.step _ _ at shape
    obtain ⟨rfl,rfl⟩ := Prog.step.inj shape
    obtain rfl : t = x := Option.some.inj (word.symm.trans first)
    obtain ⟨removed,_⟩ := detach_removed (k := k) here.core (r := .event q) trivial (alone.trans (List.nil_append [t]).symm)
    obtain ⟨_,last⟩ := removed.carried here.core (alone.trans (List.nil_append [t]).symm) trivial rfl
    have empty := last rfl
    exfalso
    obtain ⟨linked,free⟩ := joined
    split at empty
    · exact linked empty
    · exact free empty

theorem delivering_shape {p : Code Int} (delivering : Delivering q k p) : ∃ update next, p = .step update next := by
  cases delivering with
  | signal f => exact ⟨_,_,rfl⟩
  | detach t f word => exact ⟨_,_,rfl⟩

theorem delivering_irq {p : Code Int} (delivering : Delivering q k p) (irq : Irq u k l) : Delivering q l p := by
  cases delivering with
  | signal f => exact .signal f
  | detach t f word =>
    refine .detach t f ?_
    have calm : l.link (.event q) = k.link (.event q) := by
      cases irq with
      | event p raised =>
        have busy : k.links.link (.event q) ≠ none := fun empty => by simpa using word.symm.trans empty
        exact (event_calm raised).1.word busy
      | tick => rfl
      | heap a => rfl
    exact calm.trans word

theorem irq_creating (irq : Irq u k l) : l.creating = k.creating := by
  cases irq with
  | event p raised => exact congrArg Rest.creating (event_calm raised).2
  | tick => rfl
  | heap a => rfl

theorem reading_irq (reading : Reading u q me spent c) (irq : (counting u q).interrupt c.state k)
    (early : ∀ b, c.call me = some b → b.op.waits = some q → b.rest = body b.op → ¬spent → ¬later)
    (fresh : Pending q k → Pending q c.state ∨ later) (grows : spent → later)
    (told : later → spent ∨ Pending q k) : Reading u q me later {c with state := k} := by
  obtain ⟨young,others,progress⟩ := reading
  have tracked {i : Addr} {p : Code Int} {mode : Mode} (before : (tokens u q mode).Tracked (counting u q) c i p) :
      (tokens u q mode).Tracked (counting u q) {c with state := k} i p :=
    ⟨fun same => Watch.heeds_irq (before.1 same) irq,before.2⟩
  refine ⟨fun b call other => ?_,fun i b call waits signals => tracked (others i b call waits signals),
    fun b call about => ?_⟩
  · exact (irq_creating irq.1).trans (young b call other)
  · cases progress b call about with
    | before running real start out unspent =>
      refine .before running ?_ start (irq_unjoined irq.1 out) (early b call about start unspent)
      rw [show k.bermudaCurrentThread = _ from counted_current (.single irq)]
      exact real
    | entering running enters word =>
      refine .entering running (enters_irq enters irq) ⟨fun pending => ?_,fun now => ?_⟩
      · rcases fresh pending with before | now
        · exact grows (word.mp before)
        · exact now
      · rcases told now with before | pending
        · exact irq.2 (word.mpr before)
        · exact pending
    | aside watched early late =>
      refine .aside (tracked watched) (fun pending => ?_) fun now joined => ?_
      · rcases fresh pending with before | now
        · exact grows (early before)
        · exact now
      · have linked : Joined q c.state := by
          by_contra out
          exact irq_unjoined irq.1 out joined
        rcases told now with before | pending
        · rcases late before linked with pending | ⟨b,call,delivering⟩
          · exact .inl (irq.2 pending)
          · exact .inr ⟨b,call,delivering_irq delivering irq.1⟩
        · exact .inl pending

/-- The count of the events does not wrap before the reader is told. -/
theorem reading_counts (gentle : Gentle u) (reach : Reachable (scheduler u) (booted u) c) (only : Only q me c)
    (reading : Reading u q me spent c) (unspent : ¬spent) (pending : Pending q c.state) :
    Pending q (bermudaEventSignalFromISR q c.state) := by
  by_cases signal : c.state.link (.event q) = signaled
  · unfold bermudaEventSignalFromISR
    rw [signal]
    exact .inl signal
  · have joined : Joined q c.state := by
      refine ⟨fun empty => ?_,signal⟩
      rcases pending with last | ⟨t,first,_⟩
      · exact signal last
      · exact absurd (empty.symm.trans first) (by simp)
    obtain ⟨L,R,here⟩ := good_inv (kernel_verified gentle) (kernel_good gentle reach)
    obtain ⟨t,us,list,_⟩ := joined_waiters here joined
    obtain ⟨_,b,call,wait⟩ := joined_reader gentle reach only (here.waiters q)
      (show t ∈ L.queue (.event q) by simp [list])
    cases reading.progress b call wait with
    | before _ _ _ out => exact absurd joined out
    | entering _ _ word => exact absurd (word.mp pending) unspent
    | aside _ early _ => exact absurd (early pending) unspent

theorem reading_invoke {op : Op} (gentle : Gentle u) (reach : Reachable (scheduler u) (booted u) c)
    (only : Only q me c) (idle : c.call c.running = none) (allowed : allowed u c.running op c.state)
    (about : op.waits ≠ some q ∧ op.signals ≠ some q ∨
      c.running = me ∧ ∃ tmo, op = .bermudaEventWaitNext (some q) tmo)
    (unspent : op.waits = some q → ¬spent) (reading : Reading u q me spent c) :
    Reading u q me spent (invoke (scheduler u) op c) := by
  obtain ⟨young,others,progress⟩ := reading
  obtain ⟨L,R,client⟩ := (kernel_good gentle reach).idle idle
  have grown : c.state.creating = none := by
    have age := client.sound.placed.grown
    rw [client.here.young] at age
    exact (congrArg Rest.creating client.here.rest).trans age
  have calls {i : Addr} {b : Call Kernel Op Int} (call : (invoke (scheduler u) op c).call i = some b) :
      i = c.running ∧ b = ⟨op,c.state,body op⟩ ∨ i ≠ c.running ∧ c.call i = some b := by
    unfold invoke at call
    dsimp only at call
    by_cases same : i = c.running
    · subst same
      rw [Function.update_self] at call
      exact .inl ⟨rfl,(Option.some.inj call).symm⟩
    · rw [Function.update_of_ne same] at call
      exact .inr ⟨same,call⟩
  refine ⟨fun b call _ => grown,fun i b call waits signals => ?_,fun b call wait => ?_⟩
  · rcases calls call with ⟨rfl,rfl⟩ | ⟨other,before⟩
    · have mild : Mild u q op.mode (body op) := mild_body waits signals allowed
      exact ⟨fun _ => mild _,fun _ s _ => mild s⟩
    · exact ⟨fun same => absurd same other,(others i b before waits signals).2⟩
  · rcases calls call with ⟨rfl,rfl⟩ | ⟨other,before⟩
    · refine .before rfl ?_ rfl (fun joined => ?_) (unspent wait)
      · have current : c.state.bermudaCurrentThread = c.running :=
          (congrArg Rest.current client.here.rest).trans client.current
        change c.state.bermudaCurrentThread ≠ nowhere
        rw [current]
        intro last
        apply client.here.core.real
        rw [← last]
        exact client.here.core.known _ _ client.ready
      · obtain ⟨t,us,list,_⟩ := joined_waiters client.here joined
        obtain ⟨_,b,busy,_⟩ := joined_reader gentle reach only (client.here.waiters q)
          (show t ∈ L.queue (.event q) by simp [list])
        exact absurd (idle.symm.trans busy) (by simp)
    · cases progress b before wait with
      | before running => exact absurd running.symm other
      | entering running => exact absurd running.symm other
      | aside tracked early late =>
        refine .aside ⟨fun same => absurd same other,tracked.2⟩ early fun now joined => ?_
        rcases late now joined with pending | ⟨b,busy,_⟩
        · exact .inl pending
        · exact absurd (idle.symm.trans busy) (by simp)

theorem reading_step (now : ∀ b, c.call c.running = some b → b.op.mode ≠ .creates → c.state.creating = none)
    (here : ∃ L R, At u L R c.state) (there : ∃ L R, At u L R d.state) (step : Step (counting u q) c d)
    (same : ∀ i b, d.call i = some b → ∃ a, c.call i = some a ∧ a.op = b.op)
    (young : ∀ b, d.call d.running = some b → b.op.mode ≠ .creates → d.state.creating = none)
    (others : ∀ i b, c.call i = some b → b.op.waits ≠ some q → b.op.signals ≠ some q →
      (tokens u q b.op.mode).Tracked (counting u q) c i b.rest)
    (progress : ∀ b, d.call me = some b → b.op.waits = some q → Progress u q me spent d b) :
    Reading u q me spent d := by
  refine ⟨young,fun i b call waits signals => ?_,progress⟩
  obtain ⟨a,before,op⟩ := same i b call
  have watched (a' : Call Kernel Op Int) (call' : c.call i = some a') :
      (tokens u q b.op.mode).Tracked (counting u q) c i a'.rest := by
    obtain rfl := Option.some.inj (before.symm.trans call')
    have tracked := others i a before
    rw [op] at tracked
    exact tracked waits signals
  have first (running : i = c.running) : (tokens u q b.op.mode).ok c.state := by
    subst running
    exact ⟨here,fun other => now a before (op ▸ other)⟩
  have last (running : i = d.running) : (tokens u q b.op.mode).ok d.state := by
    subst running
    exact ⟨there,young b call⟩
  rcases Watch.tracked_step step first there last watched call with tracked | ⟨_,idle⟩
  · exact tracked
  · exact absurd (before.symm.trans idle) (by simp)

/-- An action of the running thread, when the reader is beyond its first one. -/
theorem aside_act {op : Op} {entry : Kernel} {update : Kernel → Kernel} {next : Kernel → Code Int} {mode : Mode}
    (here : At u L R c.state) (alone : Joined q c.state → L.queue (.event q) = [me])
    (busy : c.call c.running = some ⟨op,entry,.step update next⟩)
    (kept : Kept q mode c.state (update c.state) (next c.state))
    (early : Pending q c.state → spent) (late : spent → Joined q c.state → Held q c) :
    (Pending q (update c.state) → spent) ∧ (spent → Joined q (update c.state) →
      Held q {c with state := update c.state, call := Function.update c.call c.running (some ⟨op,entry,next c.state⟩)}) := by
  refine ⟨fun pending => early (kept.fresh pending),fun now joined => ?_⟩
  have linked := kept.joined joined
  have delivers (delivering : Delivering q (update c.state) (next c.state)) :
      Held q {c with state := update c.state, call := Function.update c.call c.running (some ⟨op,entry,next c.state⟩)} :=
    .inr ⟨_,Function.update_self _ _ _,delivering⟩
  rcases late now linked with pending | ⟨b,call,delivering⟩
  · rcases kept.pending pending with pending | ⟨_,delivering⟩
    · exact .inl pending
    · exact delivers delivering
  · obtain rfl := Option.some.inj (busy.symm.trans call)
    exact delivers (delivering_step here (alone linked) delivering joined)

theorem discard_word (grown : k.creating = none) (out : ¬Joined q k) :
    let m := if k.link (.event q) = signaled then k.setLink (.event q) none else k
    m.creating = none ∧ m.bermudaCurrentThread = k.bermudaCurrentThread ∧ m.link (.event q) = none := by
  dsimp only
  split
  · exact ⟨grown,rfl,Function.update_self _ _ _⟩
  · next busy => exact ⟨grown,rfl,unjoined_word out busy⟩

theorem reading_act {op : Op} {entry : Kernel} {update : Kernel → Kernel} {next : Kernel → Code Int}
    (gentle : Gentle u) (reach : Reachable (scheduler u) (booted u) c) (only : Only q me c)
    (busy : c.call c.running = some ⟨op,entry,.step update next⟩)
    (reading : Reading u q me spent c) :
    Reading u q me spent {c with state := update c.state, call := Function.update c.call c.running (some ⟨op,entry,next c.state⟩)} := by
  obtain ⟨now,others,progress⟩ := reading
  have verified := kernel_verified gentle
  obtain ⟨L,R,here⟩ := good_inv verified (kernel_good gentle reach)
  have there := good_inv verified (kernel_good gentle (.step reach (.act busy)))
  have alone (joined : Joined q c.state) := joined_alone gentle reach only here joined
  set d : Config Kernel Addr Op Int := {c with state := update c.state, call := Function.update c.call c.running (some ⟨op,entry,next c.state⟩)} 
  have step : Step (counting u q) c d := .act busy
  have calls {i : Addr} {b : Call Kernel Op Int} (call : d.call i = some b) :
      i = c.running ∧ b = ⟨op,entry,next c.state⟩ ∨ i ≠ c.running ∧ c.call i = some b := by
    by_cases same : i = c.running
    · subst same
      dsimp only [d] at call
      rw [Function.update_self] at call
      exact .inl ⟨rfl,(Option.some.inj call).symm⟩
    · dsimp only [d] at call
      rw [Function.update_of_ne same] at call
      exact .inr ⟨same,call⟩
  have same (i : Addr) (b : Call Kernel Op Int) (call : d.call i = some b) :
      ∃ a, c.call i = some a ∧ a.op = b.op := by
    rcases calls call with ⟨rfl,rfl⟩ | ⟨_,before⟩
    · exact ⟨_,busy,rfl⟩
    · exact ⟨b,before,rfl⟩
  have known : (tokens u q op.mode).ok c.state := ⟨⟨L,R,here⟩,now _ busy⟩
  rcases only _ _ busy with ⟨waits,signals⟩ | ⟨running,tmo,about⟩
  · -- the call is about another queue
    have keeps := Watch.tracked_act (others _ _ busy waits signals) known there
    refine reading_step now ⟨L,R,here⟩ there step same (fun b call other => ?_) others fun b call wait => ?_
    · rcases calls call with ⟨_,rfl⟩ | ⟨other,_⟩
      · exact keeps.2 other
      · exact absurd rfl other
    · rcases calls call with ⟨_,rfl⟩ | ⟨other,before⟩
      · exact absurd wait waits
      · cases progress b before wait with
        | before running => exact absurd running.symm other
        | entering running => exact absurd running.symm other
        | aside tracked early late =>
          obtain ⟨early,late⟩ := aside_act here alone busy keeps.1 early late
          exact .aside ⟨fun same => absurd same other,tracked.2⟩ early late
  · -- the call of the reader
    subst running about
    have grown : c.state.creating = none := now _ busy (by simp [Op.mode])
    have key : d.state.creating = none ∧
        Progress u q c.running spent d ⟨.bermudaEventWaitNext (some q) tmo,entry,next c.state⟩ := by
      cases progress _ busy rfl with
      | before _ real start out first =>
        change _ = Prog.step _ _ at start
        obtain ⟨rfl,rfl⟩ := Prog.step.inj start
        obtain ⟨young,current,word⟩ := discard_word (q := q) grown out
        have real' : d.state.bermudaCurrentThread ≠ nowhere := fun last => real (current.symm.trans last)
        refine ⟨young,.entering rfl (enters_wait real' (fun joined => joined.1 word) tmo) ⟨fun pending => ?_,?_⟩⟩
        · rcases pending with last | ⟨t,head,_⟩
          · exact absurd (word.symm.trans last) (by simp [signaled])
          · exact absurd (word.symm.trans head) (by simp)
        · exact fun now => absurd now first
      | entering _ enters word =>
        obtain ⟨young,⟨kept,enters⟩ | ⟨fresh,stays,mild⟩⟩ :=
          enters c.state .refl ⟨⟨L,R,here⟩,fun _ => grown⟩ there
        · refine ⟨young,.entering rfl enters ⟨fun pending => word.mp (kept.fresh pending),fun now => ?_⟩⟩
          exact (kept.pending (word.mpr now)).resolve_right fun delivers => delivers.1 rfl
        · refine ⟨young,.aside ⟨fun _ => mild _,fun _ s _ => mild s⟩ (fun pending => word.mp (fresh pending)) ?_⟩
          exact fun now joined => .inl (stays (word.mpr now) joined)
      | aside tracked early late =>
        obtain ⟨⟨kept,young⟩,rest⟩ := tracked.1 rfl _ .refl ⟨⟨L,R,here⟩,fun _ => grown⟩ there
        obtain ⟨early,late⟩ := aside_act here alone busy kept early late
        exact ⟨young (by simp),.aside ⟨fun _ => rest,fun other => absurd rfl other⟩ early late⟩
    refine reading_step now ⟨L,R,here⟩ there step same (fun _ _ _ => key.1) others fun b call wait => ?_
    rcases calls call with ⟨_,rfl⟩ | ⟨other,_⟩
    · exact key.2
    · exact absurd rfl other

theorem reading_quiet (links : d.state.links = c.state.links) (here : ∃ L R, At u L R c.state)
    (there : ∃ L R, At u L R d.state) (step : Step (counting u q) c d)
    (same : ∀ i b, d.call i = some b → ∃ a, c.call i = some a ∧ a.op = b.op)
    (young : ∀ b, d.call d.running = some b → b.op.mode ≠ .creates → d.state.creating = none)
    (settled : ∀ a, c.call me = some a → a.op.waits = some q → d.call me ≠ none →
      (tokens u q .plain).Tracked (counting u q) c me a.rest ∧ (Pending q c.state → spent) ∧
        (spent → Joined q c.state → Pending q c.state))
    (grown : ∀ b, c.call me = some b → b.op.waits = some q → b.op.mode ≠ .creates)
    (reading : Reading u q me spent c) : Reading u q me spent d := by
  obtain ⟨now,others,_⟩ := reading
  obtain ⟨pending,joined⟩ := pending_still (q := q) (congrFun (congrArg Links.link links) _)
    fun t _ _ => congrFun (congrArg Links.ec links) t
  refine reading_step now here there step same young others fun b call wait => ?_
  obtain ⟨a,before,op⟩ := same me b call
  obtain ⟨tracked,early,late⟩ := settled a before (op ▸ wait) (by simp [call])
  have plain := grown a before (op ▸ wait)
  have watched (a' : Call Kernel Op Int) (call' : c.call me = some a') :
      (tokens u q .plain).Tracked (counting u q) c me a'.rest := by
    obtain rfl := Option.some.inj (before.symm.trans call')
    exact tracked
  have first (running : me = c.running) : (tokens u q .plain).ok c.state := by
    subst running
    exact ⟨here,fun _ => now a before plain⟩
  have last (running : me = d.running) : (tokens u q .plain).ok d.state := by
    subst running
    exact ⟨there,fun _ => young b call (op ▸ plain)⟩
  rcases Watch.tracked_step step first there last watched call with tracked | ⟨_,idle⟩
  · exact .aside tracked (fun waits => early (pending.mp waits)) fun now linked =>
      .inl (pending.mpr (late now (joined linked)))
  · exact absurd (before.symm.trans idle) (by simp)

theorem waits_plain {op : Op} (wait : op.waits = some q) : op.mode ≠ .creates := by
  cases op with
  | bermudaThreadCreate => cases wait
  | _ => simp [Op.mode]

theorem reading_switch {op : Op} {entry : Kernel} {next : Code Int} (gentle : Gentle u)
    (reach : Reachable (scheduler u) (booted u) c) (only : Only q me c)
    (busy : c.call c.running = some ⟨op,entry,.switch next⟩) (reading : Reading u q me spent c) :
    Reading u q me spent {state := bermudaStackSave c.state,running := (scheduler u).target c.state,
                          call := Function.update c.call c.running (some ⟨op,entry,next⟩)} := by
  have verified := kernel_verified gentle
  have good := kernel_good gentle reach
  have there := good_inv verified (kernel_good gentle (.step reach (.switch busy)))
  obtain ⟨_,⟨L,R,_,runner,_⟩,_⟩ := (good.busy _ busy).2 _ .refl
  have grown : (bermudaStackSave c.state).creating = none := by
    have age := runner.sound.placed.grown
    rw [runner.here.young] at age
    exact (congrArg Rest.creating runner.here.rest).trans age
  refine reading_quiet (stackSave_links _) (good_inv verified good) there (.switch busy) (fun i b call => ?_)
    (fun _ _ _ => grown) (fun a call wait _ => ?_) (fun _ _ wait => waits_plain wait) reading
  · dsimp only at call
    by_cases same : i = c.running
    · subst same
      rw [Function.update_self] at call
      obtain rfl := Option.some.inj call
      exact ⟨_,busy,rfl⟩
    · rw [Function.update_of_ne same] at call
      exact ⟨b,call,rfl⟩
  · have held (holds : Held q c) : Pending q c.state := by
      rcases holds with pending | ⟨b,running,delivering⟩
      · exact pending
      · obtain rfl := Option.some.inj (busy.symm.trans running)
        obtain ⟨_,_,shape⟩ := delivering_shape delivering
        cases shape
    cases reading.progress a call wait with
    | before running _ start _ =>
      subst running
      obtain rfl := Option.some.inj (busy.symm.trans call)
      obtain ⟨waits,_⟩ | ⟨_,tmo,rfl⟩ := only _ _ busy
      · exact absurd wait waits
      · cases start
    | entering running enters word =>
      subst running
      obtain rfl := Option.some.inj (busy.symm.trans call)
      exact ⟨⟨fun _ => enters _,fun _ s _ => enters s⟩,word.mp,fun now _ => word.mpr now⟩
    | aside tracked early late => exact ⟨tracked,early,fun now joined => held (late now joined)⟩

theorem reading_ret {op : Op} {entry : Kernel} {result : Int} (gentle : Gentle u)
    (reach : Reachable (scheduler u) (booted u) c) (busy : c.call c.running = some ⟨op,entry,.ret result⟩)
    (reading : Reading u q me spent c) :
    Reading u q me spent {c with call := Function.update c.call c.running none} := by
  have inv := good_inv (kernel_verified gentle) (kernel_good gentle reach)
  refine reading_quiet (c := c) rfl inv inv (.ret busy) (fun i b call => ?_) (fun b call => ?_)
    (fun a call wait onward => ?_) (fun _ _ wait => waits_plain wait) reading
  · dsimp only at call
    by_cases same : i = c.running
    · subst same
      simp at call
    · rw [Function.update_of_ne same] at call
      exact ⟨b,call,rfl⟩
  · simp at call
  · have other : c.running ≠ me := by
      rintro rfl
      simp at onward
    cases reading.progress a call wait with
    | before running => exact absurd running other
    | entering running => exact absurd running other
    | aside tracked early late =>
      refine ⟨tracked,early,fun now joined => ?_⟩
      rcases late now joined with pending | ⟨b,running,delivering⟩
      · exact pending
      · obtain rfl := Option.some.inj (busy.symm.trans running)
        obtain ⟨_,_,shape⟩ := delivering_shape delivering
        cases shape

theorem reading_advance (gentle : Gentle u) (reach : Reachable (scheduler u) (booted u) c) (only : Only q me c)
    (reading : Reading u q me spent c) : Reading u q me spent (advance (scheduler u) c) := by
  unfold advance
  split
  · next busy => exact reading_act gentle reach only busy reading
  · next busy => exact reading_switch gentle reach only busy reading
  · next busy => exact reading_ret gentle reach busy reading
  · exact reading

theorem reading_idle (idle : ∀ b, c.call me = some b → b.op.waits ≠ some q) (reading : Reading u q me spent c) :
    Reading u q me later c :=
  ⟨reading.young,reading.others,fun b call wait => absurd wait (idle b call)⟩

theorem reading_start (idle : ∀ i, c.call i = none) : Reading u q me spent c := by
  refine ⟨fun b call => ?_,fun i b call => ?_,fun b call => ?_⟩
  · cases (idle _).symm.trans call
  · cases (idle _).symm.trans call
  · cases (idle _).symm.trans call

end Runs

end BermudaOS.Sys.Sched
