import BermudaOS.Sys.SchedWake

/-! What `BermudaSchedulerExec` does before it may switch: it posts the events that
interrupts left and processes the timers. Whatever it wakes goes to the run queue, and
nothing leaves it. -/
namespace BermudaOS.Sys.Sched
open VirtTimer VirtTimer.Timers Lib.Chains Lib.Program

variable {u : Usage} {L M N : Lists} {R Q : Rest} {k l : Kernel} {me t a q : Addr}
  {ts : List Addr} {π : Type} {C : Contract Kernel Addr Op Int π} {op : Op}

section Timers

theorem threadTimeout_meets (follows : Follows u op me C) (here : At u L R k) (grown : L.newborn = none)
    (known : t ∈ L.all) (floating : Floating L t) (real : a ≠ nowhere) (timer : R.thTimer t = some a) :
    Meets (scheduler u) C op me (bermudaThreadTimeout t)
      (fun _ l => ∃ M, Runs L M t ∧ At u M (R.ready t none R.timers) l ∧
        (Loose k.links L none → Loose l.links M none)) k := by
  refine meets_bind (meets_rest (Q := R.ready t none R.timers) follows here rfl (by simp)
    (fun l rest => by rw [Kernel.rest_setTimer,Kernel.rest_setState,rest]; rfl) (fun _ _ => rfl)
    (fun _ _ => rfl) (fun _ _ => timer_kept real timer) fun l _ there calm => ?_)
  refine meets_mono (add_meets follows there grown trivial known floating (by simp)) ?_
  rintro _ m ⟨before,after,split,there,_,joined⟩
  refine ⟨_,runs floating split,there,fun loose => joined ?_⟩
  rw [Kernel.links_setTimer,Kernel.links_setState]
  exact (loose.calm calm).weaken

theorem eventTMO_meets (follows : Follows u op me C) (here : At u L R k) (grown : L.newborn = none)
    (real : a ≠ nowhere) :
    Meets (scheduler u) C op me (bermudaEventTMO a q) (fun _ l =>
      (At u L R l ∧ (∀ s ∈ L.queue (.event q), R.thTimer s ≠ some a) ∧
        (Loose k.links L none → Loose l.links L none)) ∨
      ∃ t M, t ∈ L.queue (.event q) ∧ R.thTimer t = some a ∧ Runs L M t ∧
        At u M (R.ready t signaled R.timers) l ∧ (Loose k.links L none → Loose l.links M none)) k := by
  have queue : IsQueue (.event q) := trivial
  refine meets_bind (meets_get follows here fun l there calm => ?_)
  rcases there.core.head queue with ⟨signal,empty⟩ | ⟨busy,head⟩
  · rw [if_pos (show l.link (.event q) = signaled from signal)]
    exact meets_pure (.inl ⟨there,by simp [empty],fun loose => loose.calm calm⟩)
  rw [if_neg (show l.link (.event q) ≠ signaled from busy)]
  refine meets_bind (meets_get follows there fun l₂ there₂ calm₂ => ?_)
  have timers (s : Addr) : (l₂.thread s).thTimer = R.thTimer s :=
    congrFun (congrArg Rest.thTimer there₂.rest) s
  have chain : Chain l₂.links.next (l.links.link (.event q)) (L.queue (.event q)) := by
    have chain := there.core.chain _ queue busy
    rwa [calm₂.next]
  rcases tmoWalk_spot (r := .event q) a chain (there₂.core.length_le queue) with
    ⟨walk,missing⟩ | ⟨before,t,after,list,timed,walk⟩
  · rw [show l.link (.event q) = l.links.link (.event q) from rfl,walk]
    exact meets_pure (.inl ⟨there₂,fun s inside => timers s ▸ missing s inside,fun loose =>
      (loose.calm calm).calm calm₂⟩)
  rw [show l.link (.event q) = l.links.link (.event q) from rfl,walk]
  rw [timers] at timed
  refine meets_bind (meets_at follows there₂ fun l₃ there₃ calm₃ => ?_)
  obtain ⟨rem,rest⟩ := detach_removed there₃.core queue list
  set m := detach (spot (.event q) before) t l₃
  have owners : m.links.owners = l₃.links.owners := congrArg Rest.owners rest
  have after₃ : At u (L.set (.event q) (before ++ after)) R m := by
    refine ⟨core_remove there₃.core queue list rem fun p locked => ?_,rest.trans there₃.rest,
      there₃.young⟩
    rw [owners]
    exact ⟨Iff.rfl,(there₃.core.locks p locked).2⟩
  refine ⟨⟨_,_,there₃,after₃,fun p => moved_timeout there₃.core list rem owners,fun _ _ => rfl,
    fun _ _ => rfl,fun _ _ _ => rfl,within_same rfl fun p inside => ?_⟩,?_⟩
  · by_cases same : p = q
    · subst same
      have kept : me ∈ before ∨ me ∈ after := by simpa [Lists.set] using inside
      simp only [list,List.mem_append,List.mem_cons]
      tauto
    · simpa [Lists.set,same] using inside
  clear_value m
  refine meets_bind (meets_rest (Q := {R with state := Function.update R.state t .ready}) follows after₃ rfl
    (by simp) (fun l rest => by rw [Kernel.rest_setState,rest]) (fun _ _ => rfl) (fun _ _ => rfl)
    (fun _ _ _ => rfl) fun l _ there calm₄ => ?_)
  have inside : t ∈ L.queue (.event q) := by simp [list]
  refine meets_bind (meets_mono (add_meets follows there grown trivial (here.core.known _ t inside)
    (set_floating here.core list) (by simp)) ?_)
  rintro _ l₅ ⟨early,late,split,there₅,_,joined⟩
  refine meets_rest (Q := R.ready t signaled R.timers) follows there₅ rfl (by simp)
    (fun l rest => by rw [Kernel.rest_setTimer,rest]; rfl) (fun _ _ => rfl) (fun _ _ => rfl)
    (fun _ _ => timer_kept real timed) fun l _ there calm₆ => ?_
  refine .inr ⟨t,_,inside,timed,(freed here.core list (by simp) split).toRuns,there,fun loose => ?_⟩
  have left := (((loose.calm calm).calm calm₂).calm calm₃).leave rem queue list
  rw [Kernel.links_setTimer]
  refine (joined ?_).calm calm₆
  rw [Kernel.links_setState]
  exact left.calm calm₄

/-- An elapsed timer is gone once it was handled. -/
theorem elapse_meets (follows : Follows u op me C) (here : At u L R k) (sound : Sound u L R)
    (chain : Chain R.timers.next R.timers.bermudaTimerList (a::ts)) :
    Meets (scheduler u) C op me (elapse a) (fun _ l => ∃ M Q, At u M Q l ∧ Sound u M Q ∧
      Chain Q.timers.next Q.timers.bermudaTimerList ts ∧ Onward k.links l.links L M R Q) k := by
  have timed := sound.timedBy chain
  have grown := sound.placed.grown
  have real : a ≠ nowhere := fun last => timed.real (by simp [last])
  obtain ⟨w,retired,shorter,setup⟩ := retire_chain chain (timed.once a (by simp))
  -- the timer leaves the list without having woken a thread
  have leaves {l : Kernel} (there : At u L R l)
      (unclaimed : ∀ q, ∀ s ∈ L.queue (.event q), R.thTimer s ≠ some a)
      (kept : Loose k.links L none → Loose l.links L none) :
      Meets (scheduler u) C op me (onTimers fun v => retire v a) (fun _ l => ∃ M Q, At u M Q l ∧
        Sound u M Q ∧ Chain Q.timers.next Q.timers.bermudaTimerList ts ∧
        Onward k.links l.links L M R Q) l := by
    refine meets_mono (onTimers_meets follows there retired) fun _ m ⟨there,calm⟩ => ?_
    refine ⟨_,_,there,sound.timers timed shorter (fun b inside => by simp [inside]) setup ?_,shorter,
      ⟨rfl,fun _ inside => inside,rfl,rfl,rfl,fun loose => (kept loose).calm calm⟩⟩
    intro q s inside b timer
    rcases List.mem_cons.mp (timed.waiter q s inside b timer).1 with rfl | listed
    · exact absurd timer (unclaimed q s inside)
    · exact listed
  unfold elapse
  refine meets_bind (meets_get follows here fun l there calm => ?_)
  have timers {l : Kernel} (there : At u L R l) : l.timers = R.timers := congrArg Rest.timers there.rest
  rw [timers there]
  cases handle : (R.timers.node a).handle with
  | none =>
    refine leaves there (fun q s inside timer => ?_) fun loose => loose.calm calm
    have fires := (timed.waiter q s inside a timer).2.1
    rw [handle] at fires
    cases fires
  | some h =>
    refine meets_bind (meets_get follows there fun l there calm₂ => ?_)
    rw [timers there]
    cases h with
    | bermudaThreadTimeout =>
      obtain ⟨known,floating,_,timer⟩ := timed.sleeper a (by simp) handle _ rfl
      refine meets_bind (meets_mono (threadTimeout_meets follows there grown known floating real timer) ?_)
      rintro _ m ⟨M,runs,there,woken⟩
      refine meets_mono (onTimers_meets follows there retired) fun _ n ⟨there,calm₃⟩ => ?_
      exact ⟨M,_,there,sound.slept timed handle rfl runs shorter setup,shorter,
        ⟨runs.all,fun s inside => runs.run inside,rfl,rfl,rfl,fun loose =>
          (woken ((loose.calm calm).calm calm₂)).calm calm₃⟩⟩
    | bermudaEventTmo =>
      refine meets_bind (meets_mono (eventTMO_meets follows there grown real) ?_)
      rintro _ m (⟨there,missing,same⟩ | ⟨t,M,inside,timer,runs,there,woken⟩)
      · refine leaves there (fun q s inside timer => ?_) fun loose => same ((loose.calm calm).calm calm₂)
        obtain rfl := (timed.waiter q s inside a timer).2.2
        exact missing s inside timer
      · refine meets_mono (onTimers_meets follows there retired) fun _ n ⟨there,calm₃⟩ => ?_
        exact ⟨M,_,there,sound.timeout timed inside timer runs shorter setup,shorter,
          ⟨runs.all,fun s inside => runs.run inside,rfl,rfl,rfl,fun loose =>
            (woken ((loose.calm calm).calm calm₂)).calm calm₃⟩⟩

theorem timerLoop_meets (follows : Follows u op me C) {fuel diff : Nat} (here : At u L R k)
    (sound : Sound u L R) (chain : Chain R.timers.next R.timers.bermudaTimerList ts)
    (enough : (if diff = 0 then 1 else ts.length + 2) ≤ fuel) :
    Meets (scheduler u) C op me (timerLoop fuel diff) (fun _ l => ∃ M Q, At u M Q l ∧ Sound u M Q ∧
      Onward k.links l.links L M R Q) k := by
  induction fuel generalizing L R k ts diff with
  | zero => split at enough <;> omega
  | succ fuel ih =>
    unfold timerLoop
    refine meets_bind (meets_get follows here fun l there calm => ?_)
    have timers {l : Kernel} (there : At u L R l) : l.timers = R.timers :=
      congrArg Rest.timers there.rest
    rw [timers there]
    cases ts with
    | nil =>
      rw [show R.timers.bermudaTimerList = none from chain]
      exact meets_pure ⟨L,R,there,sound,.start L R calm⟩
    | cons a ts =>
      rw [chain.1]
      dsimp only
      by_cases spent : diff = 0
      · rw [if_pos spent]
        exact meets_pure ⟨L,R,there,sound,.start L R calm⟩
      rw [if_neg spent]
      rw [if_neg spent,List.length_cons] at enough
      have timed := sound.timedBy chain
      obtain ⟨links,list,setup⟩ := distribute_chain a diff chain
      have sound₂ := sound.timers timed (w := (distribute R.timers a diff).1) (list.symm ▸ links)
        (fun _ inside => inside) setup fun q s inside b timer => (timed.waiter q s inside b timer).1
      refine meets_bind (meets_rest (Q := {R with timers := (distribute R.timers a diff).1}) follows there rfl
        (fun _ => rfl) (fun l rest => ?_) (fun _ _ => rfl) (fun _ _ => rfl) (fun _ _ _ => rfl)
        fun l rest there₂ calm₂ => ?_)
      · rw [← rest]
        rfl
      have same : l.timers = R.timers := congrArg Rest.timers rest
      have onward : Onward k.links l.links L L R {R with timers := (distribute R.timers a diff).1} :=
        ⟨rfl,fun _ inside => inside,rfl,rfl,rfl,fun loose => (loose.calm calm).calm calm₂⟩
      rw [same] at there₂ ⊢
      refine meets_bind (meets_get follows there₂ fun l₃ there₃ calm₃ => ?_)
      rw [show l₃.timers = _ from congrArg Rest.timers there₃.rest]
      by_cases elapsed : ((distribute R.timers a diff).1.node a).ticksLeft = 0
      · simp only [elapsed,decide_true,if_true]
        refine meets_bind (meets_mono (elapse_meets follows there₃ sound₂ (list.symm ▸ links)) ?_)
        rintro _ m ⟨M,Q,there,sound,chain,further⟩
        refine meets_mono (ih there sound chain (by split <;> omega)) ?_
        rintro _ n ⟨N,S,there,sound,more⟩
        exact ⟨N,S,there,sound,((onward.calm calm₃).trans further).trans more⟩
      · simp only [elapsed,decide_false,Bool.false_eq_true,if_false]
        have none_left : (distribute R.timers a diff).2 = 0 := by
          unfold distribute at elapsed ⊢
          split_ifs at elapsed ⊢ with early
          · exact absurd (by simp) elapsed
          · rfl
        refine meets_mono (ih there₃ sound₂ (list.symm ▸ links) (by rw [if_pos none_left]; omega)) ?_
        rintro _ n ⟨N,S,there,sound,more⟩
        exact ⟨N,S,there,sound,(onward.calm calm₃).trans more⟩

theorem processTicks_meets (follows : Follows u op me C) (here : At u L R k) (sound : Sound u L R) :
    Meets (scheduler u) C op me processTicks (fun _ l => ∃ M Q, At u M Q l ∧ Sound u M Q ∧
      Onward k.links l.links L M R Q) k := by
  obtain ⟨ts,timed⟩ := sound.timed
  refine meets_bind (meets_get follows here fun l there calm => ?_)
  refine meets_bind (meets_get follows there fun l₂ there₂ calm₂ => ?_)
  split
  · exact meets_pure ⟨L,R,there₂,sound,(Onward.start L R calm).calm calm₂⟩
  refine meets_bind ?_
  unfold bermudaTimerProcess
  refine meets_bind (meets_get follows there₂ fun l₃ there₃ calm₃ => ?_)
  refine meets_bind (meets_rest (Q := {R with timers :=
    {R.timers with lastSysTick := l₃.bermudaSystemTick}}) follows there₃ rfl (fun _ => rfl)
    (fun l rest => by rw [← rest]; rfl) (fun _ _ => rfl) (fun _ _ => rfl) (fun _ _ _ => rfl)
    fun l₄ _ there₄ calm₄ => ?_)
  have sound₄ := sound.timers timed (w := {R.timers with lastSysTick := l₃.bermudaSystemTick})
    timed.chain (fun _ inside => inside) (fun _ => ⟨rfl,rfl,rfl⟩)
    fun q s inside b timer => (timed.waiter q s inside b timer).1
  have long := chain_length timed.chain
  refine meets_mono (timerLoop_meets follows there₄ sound₄ timed.chain ?_) ?_
  · unfold processLimit
    unfold addrLimit at long
    split <;> omega
  rintro _ m ⟨M,Q,there,sound,further⟩
  refine meets_rest (Q := {Q with tickResume := l.bermudaSystemTick}) follows there rfl (fun _ => rfl)
    (fun l rest => by rw [← rest]; rfl) (fun _ _ => rfl) (fun _ _ => rfl) (fun _ _ _ => rfl)
    fun n _ there calm₅ => ?_
  exact ⟨M,_,there,sound.congr rfl rfl rfl rfl rfl rfl,
    ⟨further.all,further.run,further.current,further.waiting,further.settled,fun loose =>
      (further.loose ((((loose.calm calm).calm calm₂).calm calm₃).calm calm₄)).calm calm₅⟩⟩

end Timers

/-- `n` of the events pending on a queue woke its first `n` waiters. -/
structure Served (q : Addr) (x y : Links) (L M : Lists) (n : Nat) : Prop where
  list : M.queue (.event q) = (L.queue (.event q)).drop n
  enough : n ≤ (L.queue (.event q)).length ∧ n ≤ pending x (L.queue (.event q))
  runs : ∀ s ∈ (L.queue (.event q)).take n, s ∈ M.queue .bermudaRunQueue
  rest : M.queue (.event q) ≠ [] →
    pending y (M.queue (.event q)) + n = pending x (L.queue (.event q))
  last : M.queue (.event q) = [] → y.link (.event q) =
    if L.queue (.event q) = [] then x.link (.event q)
    else if pending x (L.queue (.event q)) = n then none else signaled

theorem Still.served {x y : Links} (still : Still x y q (L.queue (.event q)))
    (same : M.queue (.event q) = L.queue (.event q)) : Served q x y L M 0 := by
  refine ⟨same,⟨Nat.zero_le _,Nat.zero_le _⟩,by simp,fun _ => ?_,fun empty => ?_⟩
  · rw [same]
    exact still.count
  · rw [same] at empty
    rw [if_pos empty]
    exact still.word

theorem Served.trans {x y z : Links} {n m : Nat} (first : Served q x y L M n)
    (second : Served q y z M N m)
    (run : ∀ s ∈ M.queue .bermudaRunQueue, s ∈ N.queue .bermudaRunQueue) :
    Served q x z L N (n + m) := by
  obtain ⟨long,many⟩ := first.enough
  obtain ⟨longer,more⟩ := second.enough
  have size : (M.queue (.event q)).length = (L.queue (.event q)).length - n := by
    rw [first.list,List.length_drop]
  refine ⟨?_,⟨by omega,?_⟩,fun s inside => ?_,fun busy => ?_,fun empty => ?_⟩
  · rw [second.list,first.list,List.drop_drop]
  · by_cases none_left : M.queue (.event q) = []
    · rw [none_left,List.length_nil] at longer
      omega
    · have := first.rest none_left
      omega
  · rw [List.take_add,List.mem_append,← first.list] at inside
    rcases inside with early | late
    · exact run s (first.runs s early)
    · exact second.runs s late
  · have before : M.queue (.event q) ≠ [] := by
      rintro none_left
      rw [second.list,none_left,List.drop_nil] at busy
      exact busy rfl
    have := first.rest before
    have := second.rest busy
    omega
  · rw [second.last empty]
    by_cases none_left : M.queue (.event q) = []
    · rw [if_pos none_left,first.last none_left]
      rw [none_left,List.length_nil] at longer
      obtain rfl : m = 0 := by omega
      rfl
    · have waiting : L.queue (.event q) ≠ [] := by
        rintro none_left'
        rw [first.list,none_left',List.drop_nil] at none_left
        exact none_left rfl
      have := first.rest none_left
      rw [if_neg none_left,if_neg waiting]
      congr 1
      rw [eq_iff_iff]
      omega

section Events

theorem deliver_still {x y : Links} {us : List Addr} {n : Nat} {lock : Addr → Prop}
    (core : Core lock x L) (list : L.queue (.event q) = t::us)
    (result : y = {x with ec := Function.update x.ec t n}) {p : Addr} (other : p ≠ q) :
    Still x y p (L.queue (.event p)) := by
  subst result
  refine ⟨rfl,?_⟩
  cases waiters : L.queue (.event p) with
  | nil => rfl
  | cons h rest =>
    have apart : h ≠ t := by
      rintro rfl
      have same := core.alone (.event p) (.event q) h (by simp [waiters]) (by simp [list])
      injection same with same
      exact other same
    simp [pending,apart]

theorem postEvent_meets (follows : Follows u op me C) (here : At u L R k) (sound : Sound u L R)
    (current : R.current = me) (known : t ∈ L.all) :
    Meets (scheduler u) C op me (postEvent t) (fun _ l => ∃ M Q, At u M Q l ∧ Sound u M Q ∧
      Onward k.links l.links L M R Q ∧ ∀ q, Quiet u q → ∃ n, Served q k.links l.links L M n ∧
        ∀ us, L.queue (.event q) = t::us → pending k.links (t::us) ≠ 0 → n ≠ 0) k := by
  refine meets_bind (meets_get follows here fun l there calm => ?_)
  by_cases zero : (l.thread t).ec = 0
  · rw [if_pos zero]
    refine meets_pure ⟨L,R,there,sound,.start L R calm,fun q quiet => ?_⟩
    have still := calm.still here.core quiet
    refine ⟨0,still.served rfl,fun us list events => ?_⟩
    rw [list] at still
    exact absurd (still.count.symm.trans zero) events
  rw [if_neg zero]
  have old : L.newborn ≠ some t := by simp [sound.placed.grown]
  obtain ⟨q,us,list⟩ := there.core.counts t known old zero
  have inside : t ∈ L.queue (.event q) := by simp [list]
  have unlocked : ¬u.lock q := fun locked => zero (there.core.still q locked t inside)
  refine meets_bind (meets_get follows there fun l₂ there₂ calm₂ => ?_)
  rw [show (l₂.thread t).queue = some (.event q) from there₂.core.queued _ t inside]
  refine meets_bind (meets_at follows there₂ fun l₃ there₃ calm₃ => ?_)
  have real : l₃.link (.event q) ≠ signaled := there₃.core.unsignaled trivial (by simp [list])
  have small : (l₃.thread t).ec < 2^8 := there₃.core.small _ t inside
  set m := l₃.setEc t (((l₃.thread t).ec + 2^8 - 1) % 2^8) with hm
  have links : m.links = {l₃.links with
      ec := Function.update l₃.links.ec t (((l₃.thread t).ec + 2^8 - 1) % 2^8)} :=
    Kernel.links_setEc l₃ t _
  have after : At u L R m :=
    ⟨core_count there₃.core list unlocked (Nat.mod_lt _ (by decide)) links,
      (Kernel.rest_setEc l₃ t _).trans there₃.rest,there₃.young⟩
  have counted (more : (l₃.thread t).ec ≠ 0) : pending m.links (t::us) + 1 = pending l₃.links (t::us) := by
    have before : pending l₃.links (t::us) = (l₃.thread t).ec := rfl
    have now : pending m.links (t::us) = ((l₃.thread t).ec + 2^8 - 1) % 2^8 := by
      rw [links]
      simp [pending]
    rw [before,now]
    omega
  have moved (p : Addr) : Moved (Bounded u) me l₃.links m.links p (L.queue (.event p))
      (L.queue (.event p)) := by
    by_cases same : p = q
    · subst same
      rw [list]
      refine .deliver (by rw [links]) (fun bounded => counted ?_) (by rw [links])
      have grown := (calm₂.trans calm₃).grow bounded t
      change (l.thread t).ec ≤ (l₃.thread t).ec at grown
      omega
    · exact .keep (deliver_still there₃.core list links same) (by rw [links])
  refine ⟨⟨L,R,there₃,after,moved,fun _ _ => rfl,fun _ _ => rfl,fun _ _ _ => rfl,
    within_same rfl fun _ inside => inside⟩,?_⟩
  rw [if_neg real]
  have posted : Onward k.links m.links L L R R := by
    rw [links]
    refine ⟨rfl,fun _ inside => inside,rfl,rfl,rfl,fun loose => ?_⟩
    have before : Loose l₃.links L none := ((loose.calm calm).calm calm₂).calm calm₃
    exact before
  clear_value m
  refine meets_bind (meets_mono (signalRaw_meets follows after sound current
    (fun locked => absurd locked unlocked) fun locked => absurd locked unlocked) ?_)
  rintro _ n ⟨M,Q,there₄,sound₄,onward,_,woken⟩
  refine meets_pure ⟨M,Q,there₄,sound₄,posted.trans onward,fun p quiet => ?_⟩
  have before := ((calm.trans calm₂).trans calm₃).still here.core quiet
  by_cases same : p = q
  · subst same
    obtain ⟨rest,run,carried⟩ := woken.own t us list
    have through := carried quiet
    rw [list] at before
    have some_left : (l₃.thread t).ec ≠ 0 := by
      have now := ((calm₂.trans calm₃).still there.core quiet).count
      rw [list] at now
      change (l₃.thread t).ec = (l.thread t).ec at now
      omega
    have count := counted some_left
    rw [before.count] at count
    refine ⟨1,⟨?_,⟨?_,?_⟩,?_,?_,?_⟩,fun _ _ _ => one_ne_zero⟩
    · rw [rest,list]
      rfl
    · simp [list]
    · rw [list]
      omega
    · rw [list]
      simpa using run
    · intro busy
      rw [rest] at busy ⊢
      rw [list,through.1 busy]
      exact count
    · intro empty
      rw [rest] at empty
      rw [list,if_neg (by simp),through.2 empty]
      congr 1
      rw [eq_iff_iff]
      omega
  · obtain ⟨queue,still⟩ := woken.others p same
    have during := deliver_still there₃.core list links same
    refine ⟨0,((before.trans during).trans (still quiet)).served queue,fun vs first => ?_⟩
    have equal := here.core.alone (.event p) (.event q) t (by simp [first]) inside
    injection equal with equal
    exact absurd equal same

theorem postEvents_meets (follows : Follows u op me C) {fuel : Nat} {done rest : List Addr}
    (here : At u L R k) (sound : Sound u L R) (current : R.current = me)
    (all : L.all = done ++ rest) (enough : rest.length ≤ fuel) :
    Meets (scheduler u) C op me (postEvents fuel rest.head?) (fun _ l => ∃ M Q, At u M Q l ∧
      Sound u M Q ∧ Onward k.links l.links L M R Q ∧ ∀ q, Quiet u q → ∃ n, Served q k.links l.links L M n ∧
        ∀ t us, L.queue (.event q) = t::us → t ∈ rest → pending k.links (t::us) ≠ 0 → n ≠ 0) k := by
  induction rest generalizing L R k fuel done with
  | nil =>
    rw [List.head?_nil]
    unfold postEvents
    refine meets_pure ⟨L,R,here,sound,.start L R (Calm.refl (u := u) _),fun q _ => ⟨0,Still.served ⟨rfl,rfl⟩ rfl,?_⟩⟩
    exact fun t us _ inside => absurd inside (by simp)
  | cons t rest ih =>
    obtain ⟨fuel,rfl⟩ : ∃ n, fuel = n + 1 := ⟨fuel - 1,by simp at enough; omega⟩
    rw [List.head?_cons]
    unfold postEvents
    refine meets_bind (meets_mono (postEvent_meets follows here sound current
      (show t ∈ L.all by simp [all])) ?_)
    rintro _ l ⟨M,Q,there,sound₁,onward₁,served₁⟩
    have whole : M.all = (done ++ [t]) ++ rest := by
      rw [onward₁.all,all,List.append_assoc,List.singleton_append]
    refine meets_bind (meets_get follows there fun l₂ there₂ calm => ?_)
    have next : l₂.qNext t = rest.head? := by
      have chain := there₂.core.all
      rw [onward₁.all,all] at chain
      obtain ⟨_,_,_,behind⟩ := (seg_append _ _ _ _ _).mp chain
      exact chain_head behind
    rw [next]
    refine meets_mono (ih there₂ sound₁ (onward₁.current.trans current) whole
      (by simp at enough; omega)) ?_
    rintro _ m ⟨N,S,there₃,sound₃,onward₃,served₃⟩
    refine ⟨N,S,there₃,sound₃,(onward₁.calm calm).trans onward₃,fun q quiet => ?_⟩
    obtain ⟨n₁,first,some₁⟩ := served₁ q quiet
    obtain ⟨n₃,second,some₃⟩ := served₃ q quiet
    have between : Served q k.links l₂.links L M (n₁ + 0) :=
      first.trans ((calm.still there.core quiet).served rfl) fun _ inside => inside
    refine ⟨n₁ + n₃,between.trans second onward₃.run,fun h us list inside events => ?_⟩
    rcases List.mem_cons.mp inside with rfl | later
    · have := some₁ us list events
      omega
    · by_cases woke : n₁ = 0
      · subst woke
        have queue : M.queue (.event q) = h::us := by rw [first.list,list,List.drop_zero]
        have same := between.rest (by rw [queue]; simp)
        rw [queue,list] at same
        have := some₃ h us queue later (by omega)
        omega
      · omega

end Events

end BermudaOS.Sys.Sched
