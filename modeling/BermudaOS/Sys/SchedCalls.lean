import BermudaOS.Sys.SchedMoves

/-! The kernel calls against their contract. Every call starts from client code of the
running thread and ends in it; where it goes through the scheduler, the thread that
it returns to is at the top of the run queue. -/
namespace BermudaOS.Sys.Sched
open VirtTimer VirtTimer.Timers Lib.Chains Lib.Program

variable {u : Usage} {L M N : Lists} {R Q : Rest} {k l : Kernel} {op : Op} {me t a q : Addr}
  {ts us before after : List Addr} {w : Timers Callback}

/-- Thread `i` runs, in a sound state where only threads in queues have successors. -/
structure Runner (u : Usage) (i : Addr) (L : Lists) (R : Rest) (k : Kernel) : Prop where
  here : At u L R k
  sound : Sound u L R
  loose : Loose k.links L none
  current : R.current = i

/-- It runs client code: it is ready, and it is in no call. -/
structure Client (u : Usage) (i : Addr) (L : Lists) (R : Rest) (k : Kernel) : Prop
    extends Runner u i L R k where
  ready : i ∈ L.queue .bermudaRunQueue
  unwaited : R.waiting i = none
  unsettled : R.settled i = none

/-- It is the most important of the threads that are ready. -/
def Top (u : Usage) (i : Addr) (k : Kernel) : Prop :=
  ∃ L R rest, Runner u i L R k ∧ L.queue .bermudaRunQueue = i::rest

/-- The calls that return through `BermudaSchedulerExec` or the switch in `BermudaThreadSetPrio`. -/
def Scheduled : Op → Prop
  | .bermudaThreadCreate _ _ _ => False
  | .bermudaEventWaitNext none _ => False
  | _ => True

/-- What a call says about a lock. -/
def Outcome (u : Usage) (i : Addr) (op : Op) (entry : Kernel) (r : Int) (k : Kernel) : Prop :=
  match op with
  | .bermudaEventWait q _ => u.lock q →
      (r = 0 ∧ k.owners q = [i] ∨ r = -1 ∧ (i ∈ k.owners q → i ∈ entry.owners q))
  | .bermudaEventSignal q => u.lock q → i ∉ k.owners q
  | _ => True

def kernelContract (u : Usage) :
    Contract Kernel Addr Op Int (Option (Addr × Bool) × Option (Addr × Bool)) where
  inv k := ∃ L R, At u L R k
  halts := True
  step op me k l := ∃ L M R Q, Stepped u op me L M R Q k l
  own i k := (k.waiting i,k.settled i)
  client i k := ∃ L R, Client u i L R k
  resumed i k := Top u i k
  done i op entry r k := (∃ L R, Client u i L R k) ∧ (Scheduled op → Top u i k) ∧
    Outcome u i op entry r k

theorem kernel_follows (u : Usage) (op : Op) (me : Addr) : Follows u op me (kernelContract u) :=
  ⟨fun L R _ here => ⟨L,R,here⟩,fun L M R Q _ _ stepped => ⟨L,M,R,Q,stepped⟩⟩

theorem Core.only_run {lock : Addr → Prop} {x : Links} (core : Core lock x L)
    (inside : t ∈ L.queue .bermudaRunQueue) (r : Ref) (member : t ∈ L.queue r) :
    r = .bermudaRunQueue := core.alone r _ t member inside

theorem Core.not_waiting {lock : Addr → Prop} {x : Links} (core : Core lock x L)
    (inside : t ∈ L.queue .bermudaRunQueue) (q : Addr) : t ∉ L.queue (.event q) :=
  fun member => absurd (core.only_run inside _ member) (by simp)

section Switch

variable {x y : Option (Addr × Bool)}

/-- A thread has returned from the scheduler, with what it had recorded before. -/
def Resumed (u : Usage) (me : Addr) (waits turned : Option (Addr × Bool)) (l : Kernel) : Prop :=
  ∃ M Q rest, Runner u me M Q l ∧ M.queue .bermudaRunQueue = me::rest ∧
    Q.waiting me = waits ∧ Q.settled me = turned

theorem Runner.own {i : Addr} (runner : Runner u me L R k) :
    (kernelContract u).own i k = (R.waiting i,R.settled i) := by
  have waiting : k.waiting = R.waiting := congrArg Rest.waiting runner.here.rest
  have settled : k.settled = R.settled := congrArg Rest.settled runner.here.rest
  change (k.waiting i,k.settled i) = _
  rw [waiting,settled]

theorem stackSave_links (k : Kernel) : (bermudaStackSave k).links = k.links := by
  unfold bermudaStackSave
  split
  · exact Kernel.links_setState _ _ _
  · rfl

theorem swap_stepped (op : Op) (me : Addr) {rest : List Addr} (here : At u L R k) (sound : Sound u L R)
    (list : L.queue .bermudaRunQueue = t::rest) :
    (scheduler u).target k = t ∧ Stepped u op me L L R
      {R with current := t,state := Function.update R.state t .running} k ((scheduler u).swap k) ∧
    Sound u L {R with current := t,state := Function.update R.state t .running} := by
  have head : k.link .bermudaRunQueue = some t := here.core.first trivial list
  have inside : t ∈ L.queue .bermudaRunQueue := by simp [list]
  have swapped : (scheduler u).swap k = ({k with bermudaCurrentThread := t}).setState t .running := by
    change bermudaStackSave k = _
    unfold bermudaStackSave
    rw [head]
  have links : ((scheduler u).swap k).links = k.links := stackSave_links k
  have after : At u L {R with current := t,state := Function.update R.state t .running}
      ((scheduler u).swap k) := by
    refine ⟨links.symm ▸ here.core,?_,here.young⟩
    rw [swapped,Kernel.rest_setState,← here.rest]
    rfl
  refine ⟨by simp [scheduler,head],⟨here,after,fun q => ?_,fun _ _ => rfl,fun _ _ => rfl,
    fun _ _ _ => rfl,within_same rfl fun _ inside => inside⟩,?_⟩
  · rw [links]
    exact moved_keep rfl rfl rfl
  · exact (sound.state (by simp) (.inl ⟨_,inside⟩) (here.core.not_waiting inside)).congr
      rfl rfl rfl rfl rfl rfl

theorem switchTask_meets (runner : Runner u me L R k) (waits : R.waiting me = x)
    (turned : R.settled me = y) :
    Meets (scheduler u) (kernelContract u) op me bermudaSwitchTask (fun _ l => Resumed u me x y l) k := by
  obtain ⟨h,rest,list⟩ := List.exists_cons_of_ne_nil (List.ne_nil_of_mem runner.sound.placed.idle)
  refine meets_bind (meets_get (kernel_follows u op me) runner.here fun l there calm => ?_)
  rw [show l.link .bermudaRunQueue = some h from there.core.first trivial list]
  refine ⟨⟨L,R,there⟩,fun m irqs => ?_⟩
  obtain ⟨last,more⟩ := irqs_at there irqs
  have loose := (runner.loose.calm calm).calm more
  obtain ⟨target,stepped,sound⟩ := swap_stepped op me last runner.sound list
  have after : Runner u h L _ ((scheduler u).swap m) :=
    ⟨stepped.after,sound,(stackSave_links m).symm ▸ loose,rfl⟩
  refine ⟨⟨_,_,_,_,stepped⟩,?_,fun n back own => ?_⟩
  · rw [target]
    exact ⟨_,_,rest,after,list⟩
  · obtain ⟨M,Q,rest,again,top⟩ := back
    rw [again.own,after.own] at own
    obtain ⟨waiting,settled⟩ := Prod.mk.inj own
    exact ⟨M,Q,rest,again,top,waiting.trans waits,settled.trans turned⟩

/-- What `standBy` does to the state of the running thread. -/
def Rest.standBy (R : Rest) : Rest :=
  if R.state R.current = .running then {R with state := Function.update R.state R.current .ready} else R

theorem standBy_links (k : Kernel) : (standBy k).links = k.links := by
  unfold standBy
  split
  · exact Kernel.links_setState k _ _
  · rfl

theorem standBy_rest (k : Kernel) : (standBy k).rest = k.rest.standBy := by
  unfold standBy Rest.standBy
  by_cases awake : (k.thread k.bermudaCurrentThread).state = .running
  · rw [if_pos awake,if_pos (show k.rest.state k.rest.current = .running from awake),Kernel.rest_setState]
    rfl
  · rw [if_neg awake,if_neg (show k.rest.state k.rest.current ≠ .running from awake)]

theorem Rest.standBy_same (R : Rest) : R.standBy.current = R.current ∧
    R.standBy.creating = R.creating ∧ R.standBy.waiting = R.waiting ∧ R.standBy.settled = R.settled ∧
    R.standBy.thTimer = R.thTimer := by
  unfold standBy
  split <;> exact ⟨rfl,rfl,rfl,rfl,rfl⟩

theorem Sound.standBy (sound : Sound u L R) : Sound u L R.standBy := by
  unfold Rest.standBy
  split
  · next awake =>
    refine sound.state (by simp) (.inr (by simp [awake])) fun q inside => ?_
    have sleeping := sound.placed.asleep q R.current inside
    rw [awake] at sleeping
    cases sleeping
  · exact sound

theorem executeNew_meets (runner : Runner u me L R k) (waits : R.waiting me = x)
    (turned : R.settled me = y) :
    Meets (scheduler u) (kernelContract u) op me executeNew (fun _ l => Resumed u me x y l) k := by
  obtain ⟨here,sound,loose,current⟩ := runner
  obtain ⟨h,rest,list⟩ := List.exists_cons_of_ne_nil (List.ne_nil_of_mem sound.placed.idle)
  have follows := kernel_follows u op me
  refine meets_bind (meets_get follows here fun l there calm => ?_)
  have head : l.link .bermudaRunQueue = some h := there.core.first trivial list
  have running : l.bermudaCurrentThread = me := (congrArg Rest.current there.rest).trans current
  rw [head,running]
  by_cases top : h = me
  · subst top
    simp only [ne_eq,not_true_eq_false,decide_false,Bool.false_eq_true,if_false]
    exact meets_pure ⟨L,R,rest,⟨there,sound,loose.calm calm,current⟩,list,waits,turned⟩
  · have lost : some h ≠ some me := by simpa using top
    simp only [lost,ne_eq,not_false_eq_true,decide_true,if_true]
    obtain ⟨currents,creatings,waitings,settles,timers⟩ := R.standBy_same
    refine meets_bind (meets_rest (Q := R.standBy) follows there creatings standBy_links
      (fun l rest => (standBy_rest l).trans (rest ▸ rfl)) (fun t _ => congrFun waitings t)
      (fun t _ => congrFun settles t) (fun t _ _ => congrFun timers t) fun l _ there more => ?_)
    have loose₂ : Loose (standBy l).links L none := by
      rw [standBy_links]
      exact (loose.calm calm).calm more
    exact switchTask_meets ⟨there,sound.standBy,loose₂,currents.trans current⟩
      ((congrFun waitings me).trans waits) ((congrFun settles me).trans turned)

theorem threadFree_meets (runner : Runner u me L R k) :
    Meets (scheduler u) (kernelContract u) op me bermudaThreadFree
      (fun _ l => Runner u me L R l) k := by
  unfold bermudaThreadFree freeLoop
  refine meets_bind (meets_get (kernel_follows u op me) runner.here fun l there calm => ?_)
  rw [show l.link .bermudaKillQueue = none from there.core.kill]
  exact meets_pure ⟨there,runner.sound,runner.loose.calm calm,runner.current⟩

theorem schedulerExec_meets (runner : Runner u me L R k) (waits : R.waiting me = x)
    (turned : R.settled me = y) :
    Meets (scheduler u) (kernelContract u) op me bermudaSchedulerExec
      (fun _ l => Resumed u me x y l) k := by
  obtain ⟨here,sound,loose,current⟩ := runner
  have follows := kernel_follows u op me
  refine meets_bind (meets_get follows here fun l there calm => ?_)
  have head : l.link .bermudaThreadHead = L.all.head? := chain_head there.core.all
  have long := chain_length here.core.all
  rw [head]
  refine meets_bind (meets_mono (postEvents_meets follows there sound current (List.nil_append L.all).symm long) ?_)
  rintro _ l₂ ⟨M,Q,there₂,sound₂,onward₂,_⟩
  refine meets_bind (meets_mono (processTicks_meets follows there₂ sound₂) ?_)
  rintro _ l₃ ⟨N,S,there₃,sound₃,onward₃⟩
  have onward := onward₂.trans onward₃
  have last := onward.loose (loose.calm calm)
  refine meets_bind (meets_mono (executeNew_meets ⟨there₃,sound₃,last,onward.current.trans current⟩
    ((congrFun onward.waiting me).trans waits) ((congrFun onward.settled me).trans turned)) ?_)
  rintro _ l₄ ⟨M',Q',rest,after,top,waiting,settled⟩
  exact meets_mono (threadFree_meets after) fun _ l₅ last => ⟨M',Q',rest,last,top,waiting,settled⟩

theorem self_meets {post : Addr → Kernel → Prop} (here : At u L R k) (current : R.current = me)
    (next : ∀ l, At u L R l → Calm u k.links l.links → post me l) :
    Meets (scheduler u) (kernelContract u) op me self post k := by
  refine meets_get (kernel_follows u op me) here fun l there calm => ?_
  rw [show l.bermudaCurrentThread = me from (congrArg Rest.current there.rest).trans current]
  exact next l there calm

/-- `BermudaThreadYield`, by a thread that is ready or has left the run queue. -/
theorem threadYield_meets (runner : Runner u me L R k) (waits : R.waiting me = x)
    (turned : R.settled me = y)
    (place : me ∈ L.queue .bermudaRunQueue ∨ k.links.next me = none) :
    Meets (scheduler u) (kernelContract u) op me bermudaThreadYield (fun _ l => Resumed u me x y l) k := by
  obtain ⟨here,sound,loose,current⟩ := runner
  have follows := kernel_follows u op me
  refine meets_bind (meets_bind (self_meets here current fun l there calm => ?_))
  refine meets_bind (meets_get follows there fun l₂ there₂ calm₂ => ?_)
  by_cases alone : l₂.next me = none
  · simp only [alone,ne_eq,not_true_eq_false,if_false]
    exact meets_pure (schedulerExec_meets ⟨there₂,sound,(loose.calm calm).calm calm₂,current⟩ waits turned)
  simp only [alone,ne_eq,not_false_eq_true,if_true]
  have ready : me ∈ L.queue .bermudaRunQueue := by
    refine place.resolve_right fun off => alone ?_
    change l₂.links.next me = none
    rw [(calm.trans calm₂).next]
    exact off
  refine meets_bind (meets_mono (remove_meets follows there₂ ready) ?_)
  rintro _ l₃ ⟨before,after,list,there₃,_,removed⟩
  have floating := set_floating here.core list
  refine meets_mono (add_meets follows there₃ sound.placed.grown trivial
    (here.core.known _ me ready) floating (by simp)) ?_
  rintro _ l₄ ⟨early,late,split,there₄,_,added⟩
  have loose₄ := added (removed ((loose.calm calm).calm calm₂)).weaken
  refine schedulerExec_meets ⟨there₄,?_,loose₄,current⟩ waits turned
  exact sound.place ⟨(others_remove list).trans (others_insert split),fun _ => mem_insert floating,rfl,rfl⟩
    (.refl R me) rfl rfl rfl rfl rfl
    (fun waits => sound.placed.stopped me waits _ ready) (.inl ⟨_,ready⟩)
    (here.core.not_waiting ready)

theorem Resumed.client (resumed : Resumed u me none none l) : (∃ L R, Client u me L R l) ∧ Top u me l := by
  obtain ⟨M,Q,rest,runner,top,waiting,settled⟩ := resumed
  exact ⟨⟨M,Q,runner,by simp [top],waiting,settled⟩,M,Q,rest,runner,top⟩

end Switch

section Timer

theorem meetsTimer_mem {fuel : Nat} {p : Option Addr} (chain : Chain k.timers.next p ts)
    (enough : ts.length ≤ fuel) : k.meetsTimer a fuel p = decide (a ∈ ts) := by
  induction ts generalizing p fuel with
  | nil =>
    obtain rfl : p = none := chain
    cases fuel <;> rfl
  | cons b ts ih =>
    obtain ⟨rfl,rest⟩ := chain
    obtain ⟨fuel,rfl⟩ : ∃ n, fuel = n + 1 := ⟨fuel - 1,by simp at enough; omega⟩
    have onward : k.meetsTimer a fuel (k.timers.node b).next = decide (a ∈ ts) :=
      ih rest (by simp at enough; omega)
    rw [Kernel.meetsTimer,onward]
    by_cases same : b = a
    · simp [same]
    · simp [same,Ne.symm same]

theorem heapOffer_fresh (chain : Chain k.timers.next k.timers.bermudaTimerList ts)
    (offer : k.heapOffer = some a) : a ∉ ts ∧ a ≠ nowhere := by
  unfold Kernel.heapOffer at offer
  rw [meetsTimer_mem chain (chain_length chain)] at offer
  split at offer
  · cases offer
  · next free =>
    obtain rfl := Option.some.inj offer
    simp only [decide_eq_true_eq,not_or] at free
    exact ⟨free.2,free.1⟩

theorem create_made {v : Timers Callback} (now ms : Nat) (fn : Callback) (arg : Addr)
    (chain : Chain v.next v.bermudaTimerList ts) (fresh : a ∉ ts) (real : a ≠ nowhere) :
    ∃ w us, bermudaTimerCreate v a now ms (some fn) arg bermudaOneShot = some w ∧
      Made v w ts us a fn arg := by
  obtain ⟨before,after,w,rfl,created,longer,own,others,-⟩ :=
    create_chain now ms (some fn) arg bermudaOneShot chain fresh
  refine ⟨w,_,created,longer,fun b => ?_,fresh,real,own,others⟩
  simp only [List.mem_append,List.mem_cons]
  tauto

theorem createTimer_meets {ms : Nat} {fn : Callback} {arg : Addr} (here : At u L R k)
    (chain : Chain R.timers.next R.timers.bermudaTimerList ts) :
    Meets (scheduler u) (kernelContract u) op me (createTimer ms fn arg) (fun a l => ∃ w us,
      Made R.timers w ts us a fn arg ∧ At u L {R with timers := w} l ∧ Calm u k.links l.links) k := by
  have follows := kernel_follows u op me
  refine meets_bind (meets_get follows here fun l there calm => ?_)
  cases offer : l.heapOffer with
  | none => exact ⟨⟨L,R,there⟩,trivial⟩
  | some a =>
    have same : l.timers = R.timers := congrArg Rest.timers there.rest
    obtain ⟨fresh,real⟩ := heapOffer_fresh (same ▸ chain) offer
    refine meets_bind (meets_get follows there fun l₂ there₂ calm₂ => ?_)
    obtain ⟨w,us,created,made⟩ := create_made l₂.bermudaSystemTick ms fn arg chain
      fresh real
    refine meets_bind (meets_mono (onTimers_meets follows there₂ created) ?_)
    rintro _ l₃ ⟨there₃,calm₃⟩
    exact meets_pure ⟨w,us,made,there₃,(calm.trans calm₂).trans calm₃⟩

end Timer

section Threads

theorem threadSleep_meets {ms : Nat} (client : Client u me L R k) (other : me ≠ u.idle) :
    Meets (scheduler u) (kernelContract u) op me (bermudaThreadSleep ms)
      (fun _ l => Resumed u me none none l) k := by
  have follows := kernel_follows u op me
  have sound := client.sound
  obtain ⟨ts,timed⟩ := sound.timed
  refine meets_bind (self_meets client.here client.current fun l there calm => ?_)
  refine meets_bind (meets_rest (Q := {R with state := Function.update R.state me .sleeping}) follows there rfl
    (by simp) (fun l rest => by rw [Kernel.rest_setState,rest]) (fun _ _ => rfl) (fun _ _ => rfl)
    (fun _ _ _ => rfl) fun l₂ _ there₂ calm₂ => ?_)
  refine meets_bind (meets_mono (remove_meets follows there₂ client.ready) ?_)
  rintro _ l₃ ⟨before,after,list,there₃,off,removed⟩
  rw [Kernel.links_setState] at removed
  refine meets_bind (meets_mono (createTimer_meets there₃ timed.chain) ?_)
  rintro a l₄ ⟨w,us,made,there₄,calm₄⟩
  refine meets_bind (meets_rest (Q := R.sleep me a w) follows there₄ rfl (by simp)
    (fun l rest => by rw [Kernel.rest_setTimer,rest]; rfl) (fun _ _ => rfl) (fun _ _ => rfl)
    (fun _ other _ => Function.update_of_ne other _ _) fun l₅ _ there₅ calm₅ => ?_)
  refine threadYield_meets ⟨there₅,?_,?_,client.current⟩ client.unwaited client.unsettled (.inr ?_)
  · exact sound.sleep client.here.core timed list other made client.unwaited
  · rw [Kernel.links_setTimer]
    exact ((removed ((client.loose.calm calm).calm calm₂)).calm calm₄).calm calm₅
  · rw [Kernel.links_setTimer,calm₅.next,calm₄.next]
    exact off

theorem threadWait_meets (client : Client u me L R k) (other : me ≠ u.idle) :
    Meets (scheduler u) (kernelContract u) op me bermudaThreadWait (fun _ l => Resumed u me none none l) k := by
  have follows := kernel_follows u op me
  refine meets_bind (self_meets client.here client.current fun l there calm => ?_)
  refine meets_bind (meets_mono (remove_meets follows there client.ready) ?_)
  rintro _ l₂ ⟨before,after,list,there₂,_,removed⟩
  refine meets_bind (meets_rest (Q := {R with state := Function.update R.state me .waiting}) follows there₂ rfl
    (by simp) (fun l rest => by rw [Kernel.rest_setState,rest]) (fun _ _ => rfl) (fun _ _ => rfl)
    (fun _ _ _ => rfl) fun l₃ _ there₃ calm₃ => ?_)
  refine schedulerExec_meets ⟨there₃,client.sound.stop client.here.core list other,?_,client.current⟩
    client.unwaited client.unsettled
  rw [Kernel.links_setState]
  exact (removed (client.loose.calm calm)).calm calm₃

theorem threadNotify_meets {s : Option Addr} (client : Client u me L R k)
    (fits : ∀ t, s = some t → t ∈ L.all ∧ R.state t ≠ .sleeping) :
    Meets (scheduler u) (kernelContract u) op me (bermudaThreadNotify s)
      (fun _ l => Resumed u me none none l) k := by
  have follows := kernel_follows u op me
  have sound := client.sound
  cases s with
  | none => exact threadYield_meets client.toRunner client.unwaited client.unsettled (.inl client.ready)
  | some t =>
    obtain ⟨known,awake⟩ := fits t rfl
    refine meets_bind (meets_get follows client.here fun l there calm => ?_)
    have state : (l.thread t).state = R.state t := congrFun (congrArg Rest.state there.rest) t
    rw [state]
    by_cases waits : R.state t = .waiting
    · have floating := sound.placed.stopped t waits
      simp only [waits,true_or,if_true]
      refine meets_bind (meets_rest (Q := {R with state := Function.update R.state t .ready}) follows there rfl
        (by simp) (fun l rest => by rw [Kernel.rest_setState,rest]) (fun _ _ => rfl) (fun _ _ => rfl)
        (fun _ _ _ => rfl) fun l₂ _ there₂ calm₂ => ?_)
      refine meets_bind (meets_mono (add_meets follows there₂ sound.placed.grown trivial known floating
        (by simp)) ?_)
      rintro _ l₃ ⟨before,after,split,there₃,_,added⟩
      rw [Kernel.links_setState] at added
      have moved := runs floating split
      have loose₃ := added ((client.loose.calm calm).calm calm₂).weaken
      refine threadYield_meets ⟨there₃,?_,loose₃,client.current⟩ client.unwaited client.unsettled
        (.inl (moved.run client.ready))
      refine sound.place moved ⟨fun _ other => Function.update_of_ne other _ _,fun _ _ => rfl⟩ rfl rfl rfl
        rfl rfl ?_ (.inr awake) fun q => floating _
      simp
    · simp only [waits,awake,or_self,if_false]
      exact threadYield_meets ⟨there,sound,client.loose.calm calm,client.current⟩ client.unwaited
        client.unsettled (.inl client.ready)

theorem threadSetPrio_meets {prio : Nat} (client : Client u me L R k) (low : prio < bermudaLowestPrio) :
    Meets (scheduler u) (kernelContract u) op me (bermudaThreadSetPrio prio)
      (fun _ l => Resumed u me none none l) k := by
  have follows := kernel_follows u op me
  have sound := client.sound
  have known := client.here.core.known _ me client.ready
  refine meets_bind (self_meets client.here client.current fun l there calm => ?_)
  refine meets_bind (meets_get follows there fun l₂ there₂ calm₂ => ?_)
  refine meets_bind (meets_mono (remove_meets follows there₂ client.ready) ?_)
  rintro _ l₃ ⟨before,after,list,there₃,_,removed⟩
  have floating := set_floating client.here.core list
  refine meets_bind (meets_at follows there₃ fun l₄ there₄ calm₄ => ?_)
  have touched : Touched l₄.links (l₄.setPrio me prio).links (L.set .bermudaRunQueue (before ++ after)) me := by
    rw [Kernel.links_setPrio]
    exact ⟨fun _ _ _ => rfl,fun _ => rfl,fun s other => Function.update_of_ne other _ _,fun _ _ => rfl,
      fun _ _ => rfl,fun _ _ => rfl,rfl,le_rfl⟩
  have core := core_touch there₄.core floating touched fun member old => by
    rw [Kernel.links_setPrio]
    exact there₄.core.idle_ec floating member old
  have there₅ : At u (L.set .bermudaRunQueue (before ++ after)) R (l₄.setPrio me prio) :=
    ⟨core,(Kernel.rest_setPrio l₄ me prio).trans there₄.rest,there₄.young⟩
  refine ⟨⟨_,_,there₄,there₅,fun q => moved_touch floating touched,fun _ _ => rfl,fun _ _ => rfl,
    fun _ _ _ => rfl,within_same rfl fun _ inside => inside⟩,?_⟩
  simp only [low,if_true]
  refine meets_bind (meets_mono (add_meets follows there₅ sound.placed.grown trivial known floating
    (by simp)) ?_)
  rintro _ l₆ ⟨early,late,split,there₆,_,added⟩
  have loose₆ := added (((removed ((client.loose.calm calm).calm calm₂)).calm calm₄).weaken.touch touched)
  have moved : Runs L _ me :=
    ⟨(others_remove list).trans (others_insert split),fun _ => mem_insert floating,rfl,rfl⟩
  have sound₆ := sound.place moved (.refl R me) rfl rfl rfl rfl rfl
    (fun waits => sound.placed.stopped me waits _ client.ready) (.inl ⟨_,client.ready⟩)
    (client.here.core.not_waiting client.ready)
  obtain ⟨h,rest,first⟩ := List.exists_cons_of_ne_nil (List.ne_nil_of_mem sound₆.placed.idle)
  refine meets_bind (meets_get follows there₆ fun l₇ there₇ calm₇ => ?_)
  have head : l₇.link .bermudaRunQueue = some h := there₇.core.first trivial first
  have running : l₇.bermudaCurrentThread = me := (congrArg Rest.current there₇.rest).trans client.current
  rw [head,running]
  by_cases top : h = me
  · subst top
    simp only [ne_eq,not_true_eq_false,decide_false,Bool.false_eq_true,if_false]
    exact meets_pure ⟨_,R,rest,⟨there₇,sound₆,loose₆.calm calm₇,client.current⟩,first,client.unwaited,
      client.unsettled⟩
  · have lost : some h ≠ some me := by simpa using top
    simp only [lost,ne_eq,not_false_eq_true,decide_true,if_true]
    have ready : me ∈ (Lists.set (L.set .bermudaRunQueue (before ++ after)) .bermudaRunQueue
        (early ++ me::late)).queue .bermudaRunQueue := (moved.own _).mpr rfl
    refine meets_bind (meets_rest (Q := {R with state := Function.update R.state me .ready}) follows there₇ rfl
      (by simp) (fun l rest => ?_) (fun _ _ => rfl) (fun _ _ => rfl) (fun _ _ _ => rfl)
      fun l₈ _ there₈ calm₈ => ?_)
    · rw [show l.bermudaCurrentThread = me from (congrArg Rest.current rest).trans client.current,
        Kernel.rest_setState,rest]
    · have sound₈ := sound₆.state (s := .ready) (by simp) (.inl ⟨_,ready⟩) (there₇.core.not_waiting ready)
      have loose₈ := (Kernel.links_setState l₈ l₈.bermudaCurrentThread .ready).symm ▸
        (loose₆.calm calm₇).calm calm₈
      exact meets_bind (meets_mono (switchTask_meets ⟨there₈,sound₈,loose₈,client.current⟩
        client.unwaited client.unsettled) fun _ m resumed => meets_pure resumed)

end Threads

end BermudaOS.Sys.Sched
