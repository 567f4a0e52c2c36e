import BermudaOS.Sys.SchedCalls

/-! The event calls and `BermudaThreadCreate`, and with them the whole kernel: every call
meets its contract, as long as no sleeping thread is notified. -/
namespace BermudaOS.Sys.Sched
open VirtTimer VirtTimer.Timers Lib.Chains Lib.Program

variable {u : Usage} {L M N : Lists} {R Q : Rest} {k l : Kernel} {op : Op} {me t a q : Addr}
  {ts us before after : List Addr} {w : Timers Callback}

theorem single {os : List Addr} (member : t ∈ os) (short : os.length ≤ 1) : os = [t] := by
  match os,member,short with
  | [_],member,_ => rw [List.mem_singleton.mp member]

theorem Core.owner {lock : Addr → Prop} {x : Links} (core : Core lock x L) (locked : lock q)
    (member : t ∈ x.owners q) : x.owners q = [t] := single member (core.locks q locked).2

theorem At.owners (here : At u L R k) : k.links.owners = R.owners := congrArg Rest.owners here.rest

section Events

theorem take_stepped (me : Addr) (here : At u L R k) (signal : k.links.link (.event q) = signaled)
    (about : op.waits = some q) :
    Stepped u op me L L R (R.take me q) k
      (((k.setLink (.event q) none).take q me).setSettled me (some (q,true))) := by
  have empty := here.core.word (.event q) trivial signal
  have owners := here.owners
  set m := ((k.setLink (.event q) none).take q me).setSettled me (some (q,true)) with hm
  have result : m.links.owners = Function.update k.links.owners q (me::k.links.owners q) := by
    simp [hm,Kernel.take]
    rfl
  have core : Core u.lock m.links L := by
    refine core_word here.core empty (.inl rfl) rfl rfl rfl rfl rfl rfl (fun o other => ?_) fun locked => ?_
    · rw [result,Function.update_of_ne other]
    · rw [result,Function.update_self,(here.core.locks q locked).1.mp signal]
      simp [signaled]
  refine ⟨here,⟨core,?_,here.young⟩,fun p => ?_,fun _ _ => rfl,fun t other => Function.update_of_ne other _ _,
    fun _ _ _ => rfl,?_⟩
  · have settled : k.settled = R.settled := congrArg Rest.settled here.rest
    have others : k.owners = R.owners := owners
    rw [hm,Kernel.rest_setSettled,Kernel.rest_take,Kernel.rest_setLink,here.rest]
    change ({R with owners := Function.update k.owners q (me::k.owners q)
                    settled := Function.update k.settled me (some (q,true))} : Rest) = _
    rw [others,settled]
    rfl
  · by_cases same : p = q
    · subst same
      rw [empty]
      exact .take signal (Function.update_self _ _ _) (by rw [result,Function.update_self])
    · refine .keep ⟨?_,rfl⟩ (by rw [result,Function.update_of_ne same])
      exact Function.update_of_ne (by simpa using same) _ _
  · have others {p : Addr} (other : p ≠ q) : (R.take me q).owners p = R.owners p :=
      Function.update_of_ne other _ _
    refine ⟨fun p locked free taken => ?_,fun p locked held changed => ?_,fun p out inside => absurd inside out⟩
    · by_cases same : p = q
      · exact same ▸ about
      · exact absurd ((others same).trans free) taken
    · by_cases same : p = q
      · subst same
        exact absurd (congrFun owners p ▸ (here.core.locks p locked).1.mp signal) held
      · exact absurd (others same) changed

theorem waitTimer_meets {tmo : Nat} (here : At u L R k)
    (chain : Chain R.timers.next R.timers.bermudaTimerList ts) :
    Meets (scheduler u) (kernelContract u) op me (waitTimer q tmo) (fun timer l => ∃ w us,
      Waits R.timers w ts us q timer ∧ At u L {R with timers := w} l ∧ Calm u k.links l.links) k := by
  unfold waitTimer
  split
  · exact meets_pure ⟨R.timers,ts,.endless rfl rfl,here,Calm.refl _⟩
  · refine meets_bind (meets_mono (createTimer_meets here chain) ?_)
    rintro a l ⟨w,us,made,there,calm⟩
    exact meets_pure ⟨w,us,.timed made,there,calm⟩

/-- A thread in client code forgets what it recorded, and its timer if it has one. -/
theorem forget (runner : Runner u me L R k) (ready : me ∈ L.queue .bermudaRunQueue)
    (timer : Option Addr) (waits turned : Option (Addr × Bool))
    (held : waits = none ∨ waits = R.waiting me ∧ timer = R.thTimer me)
    (given : turned = none ∨ turned = R.settled me) :
    Sound u L {R with thTimer := Function.update R.thTimer me timer
                      waiting := Function.update R.waiting me waits
                      settled := Function.update R.settled me turned} := by
  refine runner.sound.record timer waits turned ready (runner.here.core.only_run ready) held fun q b same lock => ?_
  rcases given with rfl | rfl
  · cases same
  · exact (runner.sound.locked.given me q b same lock).1

theorem eventWait_meets {tmo : Nat} (client : Client u me L R k) (other : me ≠ u.idle)
    (about : op.waits = some q) :
    Meets (scheduler u) (kernelContract u) op me (bermudaEventWait q tmo) (fun r l =>
      Resumed u me none none l ∧ (u.lock q →
        (r = 0 ∧ l.owners q = [me] ∨ r = -1 ∧ (me ∈ l.owners q → me ∈ R.owners q)))) k := by
  have follows := kernel_follows u op me
  have sound := client.sound
  obtain ⟨ts,timed⟩ := sound.timed
  refine meets_bind (meets_get follows client.here fun l there calm => ?_)
  refine meets_bind (self_meets there client.current fun l₂ there₂ calm₂ => ?_)
  have loose₂ := (client.loose.calm calm).calm calm₂
  by_cases signal : l.links.link (.event q) = signaled
  · rw [if_pos (show l.link (.event q) = signaled from signal)]
    refine meets_bind (meets_at follows there₂ fun l₃ there₃ calm₃ => ?_)
    have still : l₃.links.link (.event q) = signaled := by
      rcases (calm₂.trans calm₃).event q with same | ⟨_,free,_⟩
      · exact same.trans signal
      · rw [signal] at free
        cases free
    have stepped := take_stepped me there₃ still about
    refine ⟨⟨_,_,stepped⟩,?_⟩
    have free (locked : u.lock q) : R.owners q = [] :=
      congrFun there₃.owners q ▸ (there₃.core.locks q locked).1.mp still
    have sound₃ := sound.take (t := me) free (there₃.core.word _ trivial still) client.unwaited
    refine meets_bind (meets_mono (threadYield_meets
      ⟨stepped.after,sound₃,(loose₂.calm calm₃).word rfl,client.current⟩
      client.unwaited (Function.update_self _ _ _) (.inl client.ready)) ?_)
    rintro _ l₄ ⟨M,Q,rest,runner,top,waiting,settled⟩
    refine meets_bind (meets_rest (Q := {Q with settled := Function.update Q.settled me none}) follows
      runner.here rfl (by simp) (fun l same => ?_) (fun _ _ => rfl)
      (fun t other => Function.update_of_ne other _ _) (fun _ _ _ => rfl) fun l₅ _ there₅ calm₅ => ?_)
    · have running : l.bermudaCurrentThread = me := (congrArg Rest.current same).trans runner.current
      rw [running,Kernel.rest_setSettled,same,show l.settled = Q.settled from congrArg Rest.settled same]
    · have sound₅ := (forget runner (by simp [top]) (Q.thTimer me) (Q.waiting me) none
        (.inr ⟨rfl,rfl⟩) (.inl rfl)).congr
        (Q := {Q with settled := Function.update Q.settled me none}) rfl (by simp) rfl rfl (by simp) rfl
      refine meets_pure ⟨⟨M,_,rest,⟨there₅,sound₅,runner.loose.calm calm₅,runner.current⟩,top,waiting,
        Function.update_self _ _ _⟩,fun locked => .inl ⟨rfl,?_⟩⟩
      have own := (runner.sound.locked.given me q true settled locked).1.mpr rfl
      exact there₅.core.owner locked (by rw [there₅.owners]; exact own)
  · rw [if_neg (show l.link (.event q) ≠ signaled from signal)]
    have busy (locked : u.lock q) : R.owners q ≠ [] := fun free =>
      signal ((there.core.locks q locked).1.mpr (congrFun there.owners q ▸ free))
    refine meets_bind (meets_mono (remove_meets follows there₂ client.ready) ?_)
    rintro _ l₃ ⟨before,after,list,there₃,_,removed⟩
    have floating := set_floating client.here.core list
    refine meets_bind (meets_mono (add_meets (r := .event q) follows there₃ sound.placed.grown trivial
      (client.here.core.known _ me client.ready) floating ?_) ?_)
    · rintro o same
      injection same with same
      exact ⟨rfl,same ▸ about,fun locked => same ▸ busy (same ▸ locked)⟩
    rintro _ l₄ ⟨early,late,split,there₄,_,added⟩
    refine meets_bind (meets_rest (Q := {R with state := Function.update R.state me .sleeping}) follows
      there₄ rfl (by simp) (fun l rest => by rw [Kernel.rest_setState,rest]) (fun _ _ => rfl)
      (fun _ _ => rfl) (fun _ _ _ => rfl) fun l₅ _ there₅ calm₅ => ?_)
    refine meets_bind (meets_mono (waitTimer_meets there₅ timed.chain) ?_)
    rintro timer l₆ ⟨w,us,waits,there₆,calm₆⟩
    rw [Kernel.links_setState] at calm₆
    have loose₆ := ((added (removed loose₂).weaken).calm calm₅).calm calm₆
    refine meets_bind (meets_rest (Q := R.join me q timer w) follows there₆ rfl (by simp) (fun l same => ?_)
      (fun t other => Function.update_of_ne other _ _) (fun _ _ => rfl)
      (fun t other _ => Function.update_of_ne other _ _) fun l₇ _ there₇ calm₇ => ?_)
    · have waiting : l.waiting = R.waiting := congrArg Rest.waiting same
      have owners : l.owners = R.owners := congrArg Rest.owners same
      rw [Kernel.rest_setWaiting,Kernel.rest_setTimer,same,
        show (l.setTimer me timer).waiting = R.waiting from waiting,
        show (l.setTimer me timer).owners = R.owners from owners]
      rfl
    have sound₇ := sound.join timed client.ready (client.here.core.not_waiting client.ready) other
      ((others_remove list).trans (others_insert split)) (fun _ => mem_insert floating) rfl rfl waits
      client.unsettled
    have loose₇ := (Kernel.links_setTimer l₇ me timer).symm ▸ loose₆.calm calm₇
    refine meets_bind (meets_mono (schedulerExec_meets ⟨there₇,sound₇,loose₇,client.current⟩
      (Function.update_self _ _ _) client.unsettled) ?_)
    rintro _ l₈ ⟨M,Q,rest,runner,top,waiting,settled⟩
    have ready : me ∈ M.queue .bermudaRunQueue := by simp [top]
    have out := runner.here.core.not_waiting ready q
    have running {l : Kernel} (same : l.rest.current = Q.current) : l.bermudaCurrentThread = me :=
      same.trans runner.current
    refine meets_bind (meets_rest (Q := {Q with waiting := Function.update Q.waiting me none}) follows
      runner.here rfl (by simp) (fun l same => ?_) (fun t other => Function.update_of_ne other _ _)
      (fun _ _ => rfl) (fun _ _ _ => rfl) fun l₉ same there₉ calm₉ => ?_)
    · rw [running (congrArg Rest.current same),Kernel.rest_setWaiting,same,
        show l.waiting = Q.waiting from congrArg Rest.waiting same]
      rfl
    have sound₉ := (forget runner ready (Q.thTimer me) none (Q.settled me)
      (.inl rfl) (.inr rfl)).congr (Q := {Q with waiting := Function.update Q.waiting me none}) rfl rfl
      (by simp) rfl (by simp) rfl
    have loose₉ := runner.loose.calm calm₉
    have held := runner.sound.locked.held me q _ waiting
    rw [running (congrArg Rest.current same)] at there₉ ⊢
    rw [show (l₉.thread me).thTimer = Q.thTimer me from congrFun (congrArg Rest.thTimer same) me]
    by_cases late : Q.thTimer me = signaled
    · simp only [late,decide_true,if_true]
      refine meets_bind (meets_rest (Q := {Q with
        thTimer := Function.update Q.thTimer me none
        waiting := Function.update Q.waiting me none}) follows there₉ rfl (by simp) (fun l same => ?_)
        (fun _ _ => rfl) (fun _ _ => rfl) (fun t other _ => Function.update_of_ne other _ _)
        fun l₁₀ _ there₁₀ calm₁₀ => ?_)
      · rw [running (show l.rest.current = Q.current by rw [same]),Kernel.rest_setTimer,same]
      · have sound₁₀ := (forget runner ready none none (Q.settled me)
          (.inl rfl) (.inr rfl)).congr (Q := {Q with
            thTimer := Function.update Q.thTimer me none
            waiting := Function.update Q.waiting me none}) rfl rfl (by simp) rfl rfl rfl
        have loose₁₀ := (Kernel.links_setTimer l₁₀ l₁₀.bermudaCurrentThread none).symm ▸ loose₉.calm calm₁₀
        refine meets_pure ⟨⟨M,_,rest,⟨there₁₀,sound₁₀,loose₁₀,runner.current⟩,top,Function.update_self _ _ _,
          settled⟩,fun locked => .inr ⟨rfl,fun owner => ?_⟩⟩
        rw [show (l₁₀.setTimer l₁₀.bermudaCurrentThread none).owners = Q.owners from there₁₀.owners] at owner
        exact of_decide_eq_true ((held locked).1 (.inr late) owner)
    · simp only [late,decide_false,Bool.false_eq_true,if_false]
      refine meets_pure ⟨⟨M,_,rest,⟨there₉,sound₉,loose₉,runner.current⟩,top,Function.update_self _ _ _,settled⟩,
        fun locked => .inl ⟨rfl,?_⟩⟩
      exact there₉.core.owner locked (by rw [there₉.owners]; exact (held locked).2 out late)

theorem eventWaitNext_meets {q : Option Addr} {tmo : Nat} (client : Client u me L R k)
    (other : me ≠ u.idle) (unlocked : ∀ o, q = some o → ¬u.lock o) (about : op.waits = q) :
    Meets (scheduler u) (kernelContract u) op me (bermudaEventWaitNext q tmo) (fun _ l =>
      (∃ L R, Client u me L R l) ∧ (q ≠ none → Top u me l)) k := by
  cases q with
  | none => exact meets_pure ⟨⟨L,R,client⟩,fun some_queue => absurd rfl some_queue⟩
  | some q =>
    have free := unlocked q rfl
    refine meets_bind (meets_at (kernel_follows u op me) client.here fun l there calm => ?_)
    have loose : Loose (if l.link (.event q) = signaled then l.setLink (.event q) none else l).links L none := by
      split
      · exact (client.loose.calm calm).word rfl
      · exact client.loose.calm calm
    have after : At u L R (if l.link (.event q) = signaled then l.setLink (.event q) none else l) ∧
        ∀ p, Moved (Bounded u) me l.links
          (if l.link (.event q) = signaled then l.setLink (.event q) none else l).links p
          (L.queue (.event p)) (L.queue (.event p)) := by
      by_cases signal : l.link (.event q) = signaled
      · have empty := there.core.word (.event q) trivial signal
        rw [if_pos signal]
        refine ⟨⟨core_word there.core empty (.inl rfl) rfl rfl rfl rfl rfl rfl (fun _ _ => rfl)
          fun locked => absurd locked free,there.rest,there.young⟩,fun p => ?_⟩
        by_cases same : p = q
        · subst same
          rw [empty]
          exact .reset signal (Function.update_self _ _ _) rfl
        · exact .keep ⟨Function.update_of_ne (by simpa using same) _ _,rfl⟩ rfl
      · rw [if_neg signal]
        exact ⟨there,fun p => moved_keep rfl rfl rfl⟩
    refine ⟨⟨L,R,there,after.1,after.2,fun _ _ => rfl,fun _ _ => rfl,fun _ _ _ => rfl,
      within_same rfl fun _ inside => inside⟩,?_⟩
    have again : Client u me L R _ := ⟨⟨after.1,client.sound,loose,client.current⟩,client.ready,
      client.unwaited,client.unsettled⟩
    refine meets_mono (eventWait_meets again other about) fun _ m ⟨resumed,_⟩ => ?_
    exact ⟨resumed.client.1,fun _ => resumed.client.2⟩

theorem eventSignal_meets (client : Client u me L R k) (owner : u.lock q → me ∈ R.owners q)
    (about : op.signals = some q) :
    Meets (scheduler u) (kernelContract u) op me (bermudaEventSignal q) (fun _ l =>
      Resumed u me none none l ∧ (u.lock q → me ∉ l.owners q)) k := by
  have follows := kernel_follows u op me
  obtain ⟨⟨here,sound,loose,rfl⟩,ready,unwaited,unsettled⟩ := client
  have holder (locked : u.lock q) : Holder L R q := by
    refine ⟨?_,unwaited,unsettled,here.core.not_waiting ready q⟩
    have own : R.current ∈ k.links.owners q := by rw [here.owners]; exact owner locked
    rw [← here.owners]
    exact here.core.owner locked own
  refine meets_bind (meets_mono (signalRaw_meets follows here sound rfl holder fun _ => about) ?_)
  rintro r l ⟨M,Q,there,sound₂,onward,gone,_⟩
  have running {l : Kernel} (same : l.rest.current = Q.current) : l.bermudaCurrentThread = R.current :=
    same.trans onward.current
  have member : R.current ∈ M.queue .bermudaRunQueue := onward.run _ ready
  refine meets_bind (meets_rest (Q := {Q with settled := Function.update Q.settled R.current (some (q,false))})
    follows there rfl (by simp) (fun l same => ?_) (fun _ _ => rfl)
    (fun t other => Function.update_of_ne other _ _) (fun _ _ _ => rfl) fun l₂ _ there₂ calm₂ => ?_)
  · rw [running (congrArg Rest.current same),Kernel.rest_setSettled,same,
      show l.settled = Q.settled from congrArg Rest.settled same]
  have sound₃ := (sound₂.record (Q.thTimer R.current) (Q.waiting R.current) (some (q,false)) member
    (there.core.only_run member) (.inr ⟨rfl,rfl⟩)
    fun o b same locked => by
      obtain ⟨rfl,rfl⟩ : q = o ∧ false = b := by simpa using same
      simpa using gone locked).congr
    (Q := {Q with settled := Function.update Q.settled R.current (some (q,false))}) rfl (by simp) rfl rfl
    (by simp) rfl
  refine meets_bind (meets_mono (threadYield_meets ⟨there₂,sound₃,(onward.loose loose).calm calm₂,onward.current⟩
    ((congrFun onward.waiting _).trans unwaited) (Function.update_self _ _ _) (.inl member)) ?_)
  rintro _ l₃ ⟨N,S,rest,runner,top,waiting,settled⟩
  refine meets_bind (meets_rest (Q := {S with settled := Function.update S.settled R.current none}) follows
    runner.here rfl (by simp) (fun l same => ?_) (fun _ _ => rfl)
    (fun t other => Function.update_of_ne other _ _) (fun _ _ _ => rfl) fun l₄ _ there₄ calm₄ => ?_)
  · rw [show l.bermudaCurrentThread = R.current from (congrArg Rest.current same).trans runner.current,
      Kernel.rest_setSettled,same,show l.settled = S.settled from congrArg Rest.settled same]
  · have sound₄ := (forget runner (by simp [top]) (S.thTimer R.current) (S.waiting R.current) none
      (.inr ⟨rfl,rfl⟩) (.inl rfl)).congr
      (Q := {S with settled := Function.update S.settled R.current none}) rfl (by simp) rfl rfl (by simp) rfl
    refine meets_pure ⟨⟨N,_,rest,⟨there₄,sound₄,runner.loose.calm calm₄,runner.current⟩,top,waiting,
      Function.update_self _ _ _⟩,fun locked own => ?_⟩
    rw [show (l₄.setSettled l₄.bermudaCurrentThread none).owners = S.owners from there₄.owners] at own
    simpa using (runner.sound.locked.given R.current q false settled locked).1.mp own

end Events

section Create

theorem core_birth {lock : Addr → Prop} {x y : Links} (core : Core lock x L) (grown : L.newborn = none)
    (fresh : t ∉ L.all) (real : t ≠ nowhere)
    (result : y = {x with link := Function.update (Function.update x.link (.qNext t)
      (x.link .bermudaThreadHead)) .bermudaThreadHead (some t)}) :
    Core lock y {L with all := t::L.all,newborn := some t} := by
  subst result
  have floating : Floating L t := fun r inside => fresh (core.known r t inside)
  have word {r : Ref} (queue : r ≠ .bermudaThreadHead ∧ r ≠ .qNext t) :
      Function.update (Function.update x.link (.qNext t) (x.link .bermudaThreadHead))
        .bermudaThreadHead (some t) r = x.link r := by
    rw [Function.update_of_ne queue.1,Function.update_of_ne queue.2]
  have away {r : Ref} (queue : IsQueue r) : r ≠ .bermudaThreadHead ∧ r ≠ .qNext t :=
    ⟨by rintro rfl; exact queue,by rintro rfl; exact queue⟩
  refine ⟨fun r queue free => ?_,fun r queue signal => ?_,?_,core.only,?_,?_,?_,?_,core.alone,core.sorted,
    core.stamped,core.queued,?_,core.small,?_,?_,core.still⟩
  · dsimp only at free ⊢
    rw [word (away queue)] at free ⊢
    exact seg_congr (core.chain r queue free) fun s _ => word (r := .next s) ⟨by simp,by simp⟩
  · exact core.word r queue (word (away queue) ▸ signal)
  · dsimp only
    rw [word ⟨by simp,by simp⟩]
    exact core.runWord
  · refine ⟨by simp,?_⟩
    have next : Links.qNext {x with link := Function.update (Function.update x.link (.qNext t)
        (x.link .bermudaThreadHead)) .bermudaThreadHead (some t)} t = x.link .bermudaThreadHead := by
      simp [Links.qNext]
    rw [next]
    refine seg_congr core.all fun s inside => word (r := .qNext s) ⟨by simp,?_⟩
    rintro same
    injection same with same
    exact fresh (same ▸ inside)
  · dsimp only
    rw [word ⟨by simp,by simp⟩]
    exact core.kill
  · simp only [List.mem_cons,not_or]
    exact ⟨real.symm,core.real⟩
  · exact fun r s inside => List.mem_cons_of_mem _ (core.known r s inside)
  · intro s known old events
    have other : s ≠ t := fun same => old (congrArg some same.symm)
    exact core.counts s ((List.mem_cons.mp known).resolve_left other) (by simp [grown]) events
  · intro s born
    obtain rfl := Option.some.inj born
    exact floating
  · intro o locked
    dsimp only
    rw [word ⟨by simp,by simp⟩]
    exact core.locks o locked

theorem Loose.birth {x y : Links} (loose : Loose x L (some t))
    (link : y.link = Function.update (Function.update x.link (.qNext t) (x.link .bermudaThreadHead))
      .bermudaThreadHead (some t)) : Loose y {L with all := t::L.all,newborn := some t} (some t) := by
  intro s known floating other
  have own : s ≠ t := by simpa using other
  rw [← loose s ((List.mem_cons.mp known).resolve_left own) floating other,Links.next,link]
  rw [Function.update_of_ne (by simp),Function.update_of_ne (by simp)]
  rfl

theorem threadCreate_meets {name : List Char} {prio : Nat} (client : Client u me L R k)
    (real : t ≠ nowhere) (fresh : t ∉ L.all) :
    Meets (scheduler u) (kernelContract u) op me (bermudaThreadCreate t name prio)
      (fun _ l => ∃ L R, Client u me L R l) k := by
  have follows := kernel_follows u op me
  have sound := client.sound
  have grown := sound.placed.grown
  have floating : Floating L t := fun r inside => fresh (client.here.core.known r t inside)
  set Q : Rest := {R with name := Function.update R.name t name
                          state := Function.update R.state t .ready} with hQ
  refine meets_bind (meets_at follows client.here fun l there calm => ?_)
  set m := bermudaThreadInit name prio t l with hm
  have links : m.links = {l.links with
      link := Function.update (Function.update l.link (.qNext t) none) (.next t) none
      prio := Function.update l.links.prio t prio} := by
    simp only [hm,bermudaThreadInit,Kernel.links,Kernel.setLink,Kernel.field_setThread,
      Function.update_eq_self]
    rfl
  have touched : Touched l.links m.links L t := by
    rw [links]
    refine ⟨fun s other apart => ?_,fun known => absurd known fresh,
      fun s other => Function.update_of_ne other _ _,fun _ _ => rfl,fun _ _ => rfl,fun _ _ => rfl,rfl,le_rfl⟩
    have away : s ≠ .qNext t := apart.resolve_right fresh
    dsimp only
    rw [Function.update_of_ne other,Function.update_of_ne away]
    rfl
  have rest : m.rest = Q := by
    rw [hQ,← there.rest]
    simp only [hm,bermudaThreadInit,Kernel.rest,Kernel.setLink,Kernel.field_setThread,
      Function.update_eq_self]
    rfl
  have after : At u L Q m :=
    ⟨core_touch there.core floating touched fun known => absurd known fresh,rest,there.young⟩
  refine ⟨⟨L,Q,there,after,fun q => moved_touch floating touched,fun _ _ => rfl,fun _ _ => rfl,
    fun _ _ _ => rfl,within_same rfl fun _ inside => inside⟩,?_⟩
  have loose₁ := (client.loose.calm calm).weaken.touch touched
  clear_value m
  refine meets_bind (meets_at follows after fun l₂ there₂ calm₂ => ?_)
  have core := core_birth there₂.core grown fresh real rfl
    (y := ((l₂.setLink (.qNext t) (l₂.link .bermudaThreadHead)).setLink .bermudaThreadHead (some t)).links)
  have here₃ : At u {L with all := t::L.all,newborn := some t} {Q with creating := some t}
      (((l₂.setLink (.qNext t) (l₂.link .bermudaThreadHead)).setLink .bermudaThreadHead (some t)).create t) :=
    ⟨core,by rw [← there₂.rest]; rfl,rfl⟩
  refine ⟨⟨_,_,there₂,here₃,fun q => .keep ⟨?_,rfl⟩ rfl,fun _ _ => rfl,fun _ _ => rfl,
    fun _ _ _ => rfl,within_same rfl fun _ inside => inside⟩,?_⟩
  · simp [Kernel.setLink]
    rfl
  have adult : {Q with creating := none} = Q := by
    rw [← there₂.young.symm.trans grown]
  refine meets_mono (addBorn_meets (L := {L with all := t::L.all}) (b := some t) follows here₃ adult
    (.inr rfl) grown trivial (by simp) floating (by simp)) ?_
  rintro _ l₄ ⟨before,after,split,there₄,_,added⟩
  have loose₄ := added ((loose₁.calm calm₂).birth rfl)
  have alike : Alike R Q t := ⟨fun _ other => Function.update_of_ne other _ _,fun _ _ => rfl⟩
  have sound₄ := sound.birth fresh floating split alike rfl rfl rfl rfl rfl (Function.update_self _ _ _)
  refine ⟨_,Q,⟨there₄,sound₄,loose₄,client.current⟩,?_,client.unwaited,client.unsettled⟩
  have apart : me ≠ t := fun same => floating _ (same ▸ client.ready)
  exact (others_insert (L := {L with all := t::L.all}) split me apart _).mpr client.ready

end Create

section Kernel

theorem Core.known_iff {lock : Addr → Prop} (core : Core lock k.links L) : Known k t ↔ t ∈ L.all := by
  constructor
  · rintro ⟨ts,chain,inside⟩
    exact chain_unique chain core.all ▸ inside
  · exact fun inside => ⟨L.all,core.all,inside⟩

/-- The threads that are notified are not asleep: they wait for it, or are ready. -/
def Gentle (u : Usage) : Prop := ∀ t k, u.notifies t k → (k.thread t).state ≠ .sleeping

theorem calls_meet (gentle : Gentle u) (op : Op) (client : Client u me L R k)
    (allowed : (scheduler u).allowed me op k) :
    Meets (scheduler u) (kernelContract u) op me (body op) ((kernelContract u).done me op k) k := by
  have done {r : Int} {l : Kernel} {op : Op} (resumed : Resumed u me none none l)
      (outcome : Outcome u me op k r l) : (kernelContract u).done me op k r l :=
    ⟨resumed.client.1,fun _ => resumed.client.2,outcome⟩
  cases op with
  | bermudaThreadCreate t name prio =>
    obtain ⟨real,fresh⟩ := allowed
    rw [client.here.core.known_iff] at fresh
    refine meets_bind (meets_mono (threadCreate_meets client real fresh) fun _ l again => ?_)
    exact meets_pure ⟨again,fun scheduled => scheduled.elim,trivial⟩
  | bermudaThreadSleep ms =>
    exact meets_bind (meets_mono (threadSleep_meets client allowed) fun _ l back =>
      meets_pure (done back trivial))
  | bermudaThreadSetPrio prio =>
    exact meets_mono (threadSetPrio_meets client allowed.2) fun _ l back => done back trivial
  | bermudaThreadYield =>
    exact meets_bind (meets_mono (threadYield_meets client.toRunner client.unwaited client.unsettled
      (.inl client.ready)) fun _ l back => meets_pure (done back trivial))
  | bermudaThreadWait =>
    exact meets_bind (meets_mono (threadWait_meets client allowed) fun _ l back =>
      meets_pure (done back trivial))
  | bermudaThreadNotify t =>
    refine meets_bind (meets_mono (threadNotify_meets client fun s same => ?_) fun _ l back =>
      meets_pure (done back trivial))
    obtain ⟨known,notifies⟩ := allowed s same
    have state : (k.thread s).state = R.state s := congrFun (congrArg Rest.state client.here.rest) s
    exact ⟨client.here.core.known_iff.mp known,state ▸ gentle s k notifies⟩
  | bermudaThreadExit => exact allowed.elim
  | bermudaEventWait q tmo =>
    refine meets_mono (eventWait_meets client allowed rfl) fun r l ⟨back,outcome⟩ => done back fun locked => ?_
    rcases outcome locked with ⟨zero,owner⟩ | ⟨late,kept⟩
    · exact .inl ⟨zero,owner⟩
    · refine .inr ⟨late,fun own => ?_⟩
      rw [show k.owners = R.owners from client.here.owners]
      exact kept own
  | bermudaEventWaitNext q tmo =>
    refine meets_mono (eventWaitNext_meets client allowed.1 allowed.2 rfl) fun r l ⟨again,top⟩ => ?_
    refine ⟨again,fun scheduled => top ?_,trivial⟩
    rintro rfl
    exact scheduled.elim
  | bermudaEventSignal q =>
    refine meets_mono (eventSignal_meets client (fun locked => ?_) rfl) fun r l ⟨back,gone⟩ => done back gone
    rw [← show k.owners = R.owners from client.here.owners]
    exact allowed locked

theorem Runner.irq {i : Addr} (runner : Runner u i L R k) (irq : Irq u k l) : Runner u i L R l := by
  obtain ⟨there,calm⟩ := irq_at runner.here irq
  exact ⟨there,runner.sound,runner.loose.calm calm,runner.current⟩

theorem kernel_verified (gentle : Gentle u) : Verified (scheduler u) (kernelContract u) := by
  have client_irq (i : Addr) (s t : Kernel) (irq : Irq u s t) :
      (∃ L R, Client u i L R s) → ∃ L R, Client u i L R t := by
    rintro ⟨L,R,client⟩
    exact ⟨L,R,client.toRunner.irq irq,client.ready,client.unwaited,client.unsettled⟩
  have owners_irq (s t : Kernel) (irq : Irq u s t) : t.owners = s.owners ∧ t.waiting = s.waiting ∧
      t.settled = s.settled := by
    cases irq with
    | event q raised =>
      have rest := (event_calm raised).2
      exact ⟨congrArg Rest.owners rest,congrArg Rest.waiting rest,congrArg Rest.settled rest⟩
    | tick => exact ⟨rfl,rfl,rfl⟩
    | heap a => exact ⟨rfl,rfl,rfl⟩
  refine ⟨?_,?_,?_,fun i s t client irq => client_irq i s t irq client,?_,?_,?_,?_⟩
  · rintro s t ⟨L,R,here⟩ irq
    exact ⟨L,R,(irq_at here irq).1⟩
  · intro i s t irq
    obtain ⟨_,waiting,settled⟩ := owners_irq s t irq
    change (t.waiting i,t.settled i) = (s.waiting i,s.settled i)
    rw [waiting,settled]
  · rintro i j op s t ⟨L,M,R,Q,stepped⟩ other
    have before := stepped.before.rest
    have after := stepped.after.rest
    change (t.rest.waiting i,t.rest.settled i) = (s.rest.waiting i,s.rest.settled i)
    rw [before,after,stepped.waiting i other,stepped.settled i other]
  · rintro i op entry r s t ⟨client,top,outcome⟩ irq
    refine ⟨client_irq i s t irq client,fun scheduled => ?_,?_⟩
    · obtain ⟨L,R,rest,runner,first⟩ := top scheduled
      exact ⟨L,R,rest,runner.irq irq,first⟩
    · have owners := (owners_irq s t irq).1
      cases op <;> simp only [Outcome,owners] at outcome ⊢ <;> exact outcome
  · rintro i s ⟨L,R,client⟩
    exact ⟨L,R,client.here⟩
  · exact fun i op entry r s done => done.1
  · rintro i op s ⟨L,R,client⟩ allowed
    exact calls_meet gentle op client allowed

end Kernel

end BermudaOS.Sys.Sched
