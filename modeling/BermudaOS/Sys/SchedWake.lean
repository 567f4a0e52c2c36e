import BermudaOS.Sys.SchedSound

/-! How threads are woken: by an event, by the time-out of their wait and by the end of
their sleep. Each takes the thread out of the queue it waits in, if it waits in one,
and puts it into the run queue with the timer of the wait gone. -/
namespace BermudaOS.Sys.Sched
open VirtTimer VirtTimer.Timers Lib.Chains Lib.Program

variable {u : Usage} {L M N : Lists} {R Q : Rest} {k l : Kernel} {me t a q : Addr}
  {ts us : List Addr} {v w : Timers Callback}

/-- The timers without some that no wait counts on. -/
theorem Timed.shrink (timed : Timed L R ts) (chain : Chain w.next w.bermudaTimerList us)
    (less : ∀ a ∈ us, a ∈ ts) (setup : SameSetup R.timers w)
    (kept : ∀ q, ∀ s ∈ L.queue (.event q), ∀ a, R.thTimer s = some a → a ∈ us) :
    Timed L {R with timers := w} us := by
  refine ⟨chain,fun a inside => ?_,fun last => timed.real (less _ last),fun a inside handle t arg => ?_,
    fun q t member a timer => ?_,timed.own,fun a inside handle => ?_⟩
  · rw [(setup a).2.2]
    exact timed.once a (less a inside)
  · rw [(setup a).1] at handle
    rw [(setup a).2.1] at arg
    exact timed.sleeper a (less a inside) handle t arg
  · rw [(setup a).1,(setup a).2.1]
    exact ⟨kept q t member a timer,(timed.waiter q t member a timer).2⟩
  · rw [(setup a).1] at handle
    rw [(setup a).2.1]
    exact timed.event a (less a inside) handle

theorem Timed.fired (timed : Timed L R (a::ts)) (others : Others L M t) (alike : Alike R Q t)
    (all : ∀ s ∈ L.all, s ∈ M.all) (chain : Chain Q.timers.next Q.timers.bermudaTimerList ts)
    (setup : SameSetup R.timers Q.timers) (own : R.thTimer t = some a)
    (unclaimed : ∀ q, ∀ s ∈ L.queue (.event q), s ≠ t → R.thTimer s ≠ some a)
    (awake : ∀ b ∈ ts, (R.timers.node b).handle = some .bermudaThreadTimeout →
      (R.timers.node b).arg ≠ t) (out : ∀ q, t ∉ M.queue (.event q)) : Timed M Q ts := by
  refine timed.move others alike all chain ?_ (fun last => timed.real (by simp [last])) ?_ ?_
    (fun q inside => absurd inside (out q)) ?_
  · intro b inside
    rw [(setup b).2.2]
    exact timed.once b (by simp [inside])
  · intro b inside handle
    rw [(setup b).1] at handle
    rw [(setup b).2.1]
    exact .inr ⟨awake b inside handle,by simp [inside],handle,rfl⟩
  · intro s other q inside b timer
    refine ⟨?_,(setup b).1,(setup b).2.1⟩
    rcases List.mem_cons.mp (timed.waiter q s inside b timer).1 with rfl | listed
    · exact absurd timer (unclaimed q s inside other)
    · exact listed
  · intro b inside handle
    rw [(setup b).1] at handle
    rw [(setup b).2.1]
    refine .inr ⟨by simp [inside],handle,rfl,fun _ timer => ?_⟩
    obtain rfl := Option.some.inj (own.symm.trans timer)
    exact (List.nodup_cons.mp (chain_nodup timed.chain)).1 inside

/-- A thread's timer, if it has one, is stopped. -/
structure Canceled (v w : Timers Callback) (ts us : List Addr) (timer : Option Addr) : Prop where
  chain : Chain w.next w.bermudaTimerList us
  less : ∀ a ∈ us, a ∈ ts
  kept : ∀ a, timer ≠ some a → (a ∈ ts → a ∈ us) ∧ (w.node a).handle = (v.node a).handle ∧
    (w.node a).arg = (v.node a).arg ∧ (w.node a).ticks = (v.node a).ticks
  dead : ∀ a, timer = some a → (w.node a).handle = none ∧ (w.node a).ticks = 0

theorem stop_canceled (chain : Chain v.next v.bermudaTimerList ts) (listed : a ∈ ts) :
    ∃ w us, bermudaTimerStop v a = some w ∧ Canceled v w ts us (some a) := by
  obtain ⟨before,after,rfl⟩ := List.append_of_mem listed
  obtain ⟨w,stop,stopped,elapsed,running⟩ := stop_chain chain
  have dead (b : Addr) (same : some a = some b) : (w.node b).handle = none ∧ (w.node b).ticks = 0 := by
    obtain rfl := Option.some.inj same
    exact stopped.own
  by_cases zero : v.left a = 0
  · refine ⟨w,_,stop,(elapsed zero).1,fun b inside => inside,fun b other => ⟨fun inside => inside,?_⟩,dead⟩
    exact stopped.others b fun same => other (congrArg some same.symm)
  · refine ⟨w,_,stop,(running zero).1,fun b inside => ?_,fun b other => ⟨fun inside => ?_,?_⟩,dead⟩
    · rcases List.mem_append.mp inside with early | late
      · simp [early]
      · simp [late]
    · have apart : b ≠ a := fun same => other (congrArg some same.symm)
      simpa [apart] using inside
    · exact stopped.others b fun same => other (congrArg some same.symm)

/-- `M` is `L` with `t` in the run queue. -/
structure Runs (L M : Lists) (t : Addr) : Prop where
  others : Others L M t
  own : ∀ p, t ∈ M.queue p ↔ p = .bermudaRunQueue
  all : M.all = L.all
  newborn : M.newborn = L.newborn

/-- `t` was in queue `r` before. -/
structure Freed (L M : Lists) (r : Ref) (t : Addr) : Prop extends Runs L M t where
  left : ∀ before after, L.queue r = before ++ t::after → M.queue r = before ++ after
  away : ∀ p, p ≠ r → p ≠ .bermudaRunQueue → M.queue p = L.queue p

theorem freed {lock : Addr → Prop} {x : Links} {r : Ref} {before after early late : List Addr}
    (core : Core lock x L) (list : L.queue r = before ++ t::after) (waits : r ≠ .bermudaRunQueue)
    (split : (L.set r (before ++ after)).queue .bermudaRunQueue = early ++ late) :
    Freed L ((L.set r (before ++ after)).set .bermudaRunQueue (early ++ t::late)) r t := by
  refine ⟨⟨(others_remove list).trans (others_insert split),
    fun p => mem_insert (set_floating core list),rfl,rfl⟩,fun first last again => ?_,
    fun p other apart => ?_⟩
  · have nodup := core.nodup (core.isQueue (r := r) (t := t) (by simp [list]))
    have absent : t ∉ before := fun inside => by
      rw [list] at nodup
      exact (List.nodup_append.mp nodup).2.2 t inside t (by simp) rfl
    have missing : t ∉ first := fun inside => by
      rw [again] at nodup
      exact (List.nodup_append.mp nodup).2.2 t inside t (by simp) rfl
    have result : before ++ after = first ++ last := by
      have erased := congrArg (List.erase · t) (list.symm.trans again)
      simpa [List.erase_append_right,absent,missing] using erased
    simp [Lists.set,waits,result]
  · simp [Lists.set,other,apart]

theorem runs {before after : List Addr} (floating : Floating L t)
    (split : L.queue .bermudaRunQueue = before ++ after) :
    Runs L (L.set .bermudaRunQueue (before ++ t::after)) t :=
  ⟨others_insert split,fun _ => mem_insert floating,rfl,rfl⟩

namespace Runs

variable (runs : Runs L M t)
include runs

theorem placed (placed : Placed u L R) (alike : Alike R Q t) (ready : Q.state t = .ready) :
    Placed u M Q := by
  refine placed.move runs.others alike (runs.newborn.trans placed.grown)
    (fun _ => (runs.own _).mpr rfl) (fun waits => ?_) fun q inside => ?_
  · rw [ready] at waits
    cases waits
  · exact absurd ((runs.own _).mp inside) (by simp)

theorem out (q : Addr) : t ∉ M.queue (.event q) := fun inside =>
  absurd ((runs.own _).mp inside) (by simp)

theorem run {s : Addr} (inside : s ∈ L.queue .bermudaRunQueue) : s ∈ M.queue .bermudaRunQueue := by
  by_cases same : s = t
  · exact same ▸ (runs.own _).mpr rfl
  · exact (runs.others s same _).mpr inside

theorem known (s : Addr) (inside : s ∈ L.all) : s ∈ M.all := by
  rw [runs.all]
  exact inside

end Runs

/-- What the running thread needs to give a lock an event: it owns the lock. -/
structure Holder (L : Lists) (R : Rest) (q : Addr) : Prop where
  owner : R.owners q = [R.current]
  unwaited : R.waiting R.current = none
  unsettled : R.settled R.current = none
  out : R.current ∉ L.queue (.event q)

/-- The running thread has let `t` through queue `q`. -/
def Rest.wake (R : Rest) (q t : Addr) (w : Timers Callback) : Rest :=
  {R with state := Function.update R.state t .ready
          timers := w
          thTimer := Function.update R.thTimer t none
          owners := Function.update R.owners q (t::(R.owners q).erase R.current)}

/-- The first waiter of a queue is let through. -/
theorem Sound.wake (sound : Sound u L R) (timed : Timed L R ts) (list : L.queue (.event q) = t::us)
    {vs : List Addr} (freed : Freed L M (.event q) t) (canceled : Canceled R.timers w ts vs (R.thTimer t))
    (holder : u.lock q → Holder L R q) :
    Sound u M (R.wake q t w) := by
  have inside : t ∈ L.queue (.event q) := by simp [list]
  have alike : Alike R (R.wake q t w) t :=
    ⟨fun s other => Function.update_of_ne other _ _,fun s other => Function.update_of_ne other _ _⟩
  have live {b : Addr} {h : Callback} (handle : (w.node b).handle = some h) : R.thTimer t ≠ some b := by
    intro same
    rw [(canceled.dead b same).1] at handle
    cases handle
  refine ⟨freed.placed sound.placed alike (Function.update_self _ _ _),⟨vs,?_⟩,?_,?_,?_,?_⟩
  · refine timed.move freed.others alike freed.known canceled.chain ?_
      (fun last => timed.real (canceled.less _ last)) ?_ ?_
      (fun p within => absurd within (freed.out p)) ?_
    · intro b within
      by_cases same : R.thTimer t = some b
      · exact (canceled.dead b same).2
      · exact (canceled.kept b same).2.2.2.trans (timed.once b (canceled.less b within))
    · intro b within handle
      obtain ⟨_,fires,arg,_⟩ := canceled.kept b (live handle)
      have before : (R.timers.node b).handle = some .bermudaThreadTimeout := fires.symm.trans handle
      refine .inr ⟨fun same => ?_,canceled.less b within,before,arg.symm⟩
      exact timed.awake (.inl ⟨_,inside⟩) b (canceled.less b within) before (arg.symm.trans same)
    · intro s other p member b timer
      have apart : R.thTimer t ≠ some b := fun same =>
        other (timed.own p q s t b member inside timer same)
      obtain ⟨listed,handle,arg,_⟩ := canceled.kept b apart
      exact ⟨listed (timed.waiter p s member b timer).1,handle,arg⟩
    · intro b within handle
      obtain ⟨_,fires,arg,_⟩ := canceled.kept b (live handle)
      exact .inr ⟨canceled.less b within,fires.symm.trans handle,arg.symm,fun _ => live handle⟩
  · intro s p b waits lock
    dsimp only [Rest.wake] at waits ⊢
    by_cases same : s = t
    · subst same
      rw [Function.update_self]
      refine ⟨fun late => ?_,fun _ _ => ?_⟩
      · rcases late with within | signal
        · exact absurd within (freed.out p)
        · cases signal
      · by_cases equal : p = q
        · subst equal
          simp
        · rw [Function.update_of_ne equal]
          refine (sound.locked.held s p b waits lock).2 (fun within => ?_) fun signal => ?_
          · have same := freed.away (.event p) (by simpa using equal) (by simp)
            exact freed.out p (same ▸ within)
          · exact timed.real (timed.waiter q s inside nowhere signal).1
    · rw [Function.update_of_ne same,freed.others s same]
      by_cases equal : p = q
      · subst equal
        obtain ⟨owner,unwaited,_,_⟩ := holder lock
        rw [Function.update_self,owner]
        refine ⟨fun _ own => absurd own (by simp [same]),fun absent timer => ?_⟩
        have own := (sound.locked.held s p b waits lock).2 absent timer
        rw [owner,List.mem_singleton] at own
        rw [own,unwaited] at waits
        cases waits
      · rw [Function.update_of_ne equal]
        exact sound.locked.held s p b waits lock
  · intro s p b turned lock
    dsimp only [Rest.wake] at turned ⊢
    obtain ⟨has,out⟩ := sound.locked.given s p b turned lock
    refine ⟨?_,fun within => ?_⟩
    · by_cases equal : p = q
      · subst equal
        obtain ⟨owner,_,unsettled,_⟩ := holder lock
        have other : s ≠ t := fun same => out (same ▸ inside)
        have apart : s ≠ R.current := by
          rintro rfl
          rw [unsettled] at turned
          cases turned
        rw [← has,Function.update_self,owner]
        simp [other,apart]
      · rw [Function.update_of_ne equal]
        exact has
    · by_cases same : s = t
      · exact freed.out p (same ▸ within)
      · exact out ((freed.others s same _).mp within)
  · intro p s within
    by_cases same : s = t
    · exact absurd (same ▸ within) (freed.out p)
    · exact sound.locked.waits p s ((freed.others s same _).mp within)
  · intro s p b waits absent
    by_cases same : s = t
    · subst same
      exact .inl (Function.update_self _ _ _)
    · rw [freed.others s same] at absent
      rw [alike.thTimer s same]
      exact sound.locked.ended s p b waits absent

/-- `t` is ready again, with this in place of its timer. -/
def Rest.ready (R : Rest) (t : Addr) (timer : Option Addr) (w : Timers Callback) : Rest :=
  {R with state := Function.update R.state t .ready
          timers := w
          thTimer := Function.update R.thTimer t timer}

theorem ready_alike (R : Rest) (t : Addr) (timer : Option Addr) (w : Timers Callback) :
    Alike R (R.ready t timer w) t :=
  ⟨fun _ other => Function.update_of_ne other _ _,fun _ other => Function.update_of_ne other _ _⟩

theorem Sound.timeout (sound : Sound u L R) (timed : Timed L R (a::ts))
    (inside : t ∈ L.queue (.event q)) (timer : R.thTimer t = some a) (runs : Runs L M t)
    (chain : Chain w.next w.bermudaTimerList ts) (setup : SameSetup R.timers w) :
    Sound u M (R.ready t signaled w) := by
  have alike := ready_alike R t signaled w
  refine ⟨runs.placed sound.placed alike (Function.update_self _ _ _),⟨ts,?_⟩,?_⟩
  · refine timed.fired runs.others alike runs.known chain setup timer (fun p s member other same => ?_)
      (fun b listed => timed.awake (.inl ⟨_,inside⟩) b (by simp [listed])) runs.out
    exact other (timed.own p q s t a member inside same timer)
  · refine sound.locked.move runs.others alike (fun _ _ _ _ => Iff.rfl) (fun _ _ => rfl) (fun _ _ => rfl) ?_
      (fun p b turned lock => ⟨(sound.locked.given t p b turned lock).1,runs.out p⟩)
      (fun p within => absurd within (runs.out p))
      fun _ _ _ _ => .inr (Function.update_self _ _ _)
    intro p b waits lock
    obtain ⟨_,same⟩ := sound.locked.waits q t inside
    obtain ⟨rfl,rfl⟩ := Prod.mk.inj (Option.some.inj (same.symm.trans waits))
    refine ⟨fun _ => (sound.locked.held t q _ waits lock).1 (.inl inside),fun _ other => ?_⟩
    exact absurd (Function.update_self _ _ _) other

theorem Sound.slept (sound : Sound u L R) (timed : Timed L R (a::ts))
    (handle : (R.timers.node a).handle = some .bermudaThreadTimeout)
    (arg : (R.timers.node a).arg = t) (runs : Runs L M t)
    (chain : Chain w.next w.bermudaTimerList ts) (setup : SameSetup R.timers w) :
    Sound u M (R.ready t none w) := by
  have alike := ready_alike R t none w
  obtain ⟨_,floating,_,timer⟩ := timed.sleeper a (by simp) handle t arg
  have fresh : a ∉ ts := (List.nodup_cons.mp (chain_nodup timed.chain)).1
  refine ⟨runs.placed sound.placed alike (Function.update_self _ _ _),⟨ts,?_⟩,?_⟩
  · refine timed.fired runs.others alike runs.known chain setup timer (fun p s member _ same => ?_)
      (fun b listed fires same => ?_) runs.out
    · have waits := (timed.waiter p s member a same).2.1
      rw [handle] at waits
      cases waits
    · have again := (timed.sleeper b (by simp [listed]) fires t same).2.2.2
      rw [timer] at again
      exact fresh (Option.some.inj again ▸ listed)
  · refine sound.locked.keep runs.others alike rfl rfl rfl (fun p => ?_) ?_
      (.inl (Function.update_self _ _ _))
    · exact ⟨fun within => absurd within (runs.out p),fun within => absurd within (floating _)⟩
    · have real : some a ≠ signaled := fun last => timed.real (by simp [Option.some.inj last])
      rw [timer]
      simp only [Rest.ready,Function.update_self]
      exact ⟨fun absent => absurd absent (by simp [signaled]),fun last => absurd last real⟩

/-- A timer that no wait counts on leaves the list. -/
theorem Sound.timers (sound : Sound u L R) (timed : Timed L R ts)
    (chain : Chain w.next w.bermudaTimerList us) (less : ∀ a ∈ us, a ∈ ts)
    (setup : SameSetup R.timers w)
    (kept : ∀ q, ∀ s ∈ L.queue (.event q), ∀ a, R.thTimer s = some a → a ∈ us) :
    Sound u L {R with timers := w} :=
  ⟨⟨sound.placed.grown,sound.placed.idle,sound.placed.stopped,sound.placed.asleep⟩,
    ⟨us,timed.shrink chain less setup kept⟩,
    ⟨sound.locked.held,sound.locked.given,sound.locked.waits,sound.locked.ended⟩⟩

/-- The running thread has given a queue without waiters an event. -/
def Rest.release (R : Rest) (q : Addr) : Rest :=
  {R with owners := Function.update R.owners q ((R.owners q).erase R.current)}

theorem Sound.release (sound : Sound u L R) (holder : u.lock q → Holder L R q) :
    Sound u L (R.release q) := by
  have others {p : Addr} (other : p ≠ q) : (R.release q).owners p = R.owners p :=
    Function.update_of_ne other _ _
  have own : (R.release q).owners q = (R.owners q).erase R.current := Function.update_self _ _ _
  obtain ⟨ts,timed⟩ := sound.timed
  refine ⟨⟨sound.placed.grown,sound.placed.idle,sound.placed.stopped,sound.placed.asleep⟩,
    ⟨ts,timed.chain,timed.once,timed.real,timed.sleeper,timed.waiter,timed.own,timed.event⟩,?_⟩
  refine sound.locked.move (.refl L R.current) ⟨fun _ _ => rfl,fun _ _ => rfl⟩ ?_ (fun _ _ => rfl)
    (fun _ _ => rfl) ?_ ?_ (fun p inside => sound.locked.waits p _ inside)
    fun p b waits absent => sound.locked.ended _ p b waits absent
  · intro p _ s other
    by_cases same : p = q
    · subst same
      rw [own]
      exact List.mem_erase_of_ne other
    · rw [others same]
  · intro p b waits lock
    by_cases same : p = q
    · subst same
      exact absurd waits (by simp [Rest.release,(holder lock).unwaited])
    · rw [others same]
      exact sound.locked.held _ p b waits lock
  · intro p b turned lock
    by_cases same : p = q
    · subst same
      exact absurd turned (by simp [Rest.release,(holder lock).unsettled])
    · rw [others same]
      exact sound.locked.given _ p b turned lock

section Effects

variable {π : Type} {C : Contract Kernel Addr Op Int π} {op : Op}

theorem onTimers_meets {f : Timers Callback → Option (Timers Callback)} (follows : Follows u op me C)
    (here : At u L R k) (result : f R.timers = some w) :
    Meets (scheduler u) C op me (onTimers f)
      (fun _ l => At u L {R with timers := w} l ∧ Calm u k.links l.links) k := by
  refine meets_bind (meets_rest (Q := {R with timers := w}) follows here rfl (fun _ => rfl) (fun l rest => ?_)
    (fun _ _ => rfl) (fun _ _ => rfl) (fun _ _ _ => rfl) fun l rest there calm => ?_)
  · have same : l.timers = R.timers := congrArg Rest.timers rest
    rw [← rest,same,result]
    rfl
  · have same : l.timers = R.timers := congrArg Rest.timers rest
    rw [same,result] at there ⊢
    exact meets_pure ⟨there,calm⟩

theorem cancelTimer_meets (follows : Follows u op me C) (here : At u L R k)
    (chain : Chain R.timers.next R.timers.bermudaTimerList ts) (real : nowhere ∉ ts)
    (listed : ∀ a, R.thTimer t = some a → a ∈ ts) :
    Meets (scheduler u) C op me (cancelTimer t) (fun _ l => ∃ w us,
      Canceled R.timers w ts us (R.thTimer t) ∧ Calm u k.links l.links ∧
      At u L {R with timers := w,thTimer := Function.update R.thTimer t none} l) k := by
  unfold cancelTimer
  refine meets_bind (meets_get follows here fun l there calm => ?_)
  have same : (l.thread t).thTimer = R.thTimer t := congrFun (congrArg Rest.thTimer there.rest) t
  rw [same]
  cases timer : R.thTimer t with
  | none =>
    refine meets_pure ⟨R.timers,ts,⟨chain,fun _ inside => inside,fun _ _ => ⟨fun inside => inside,rfl,rfl,rfl⟩,
      by simp⟩,calm,?_⟩
    rw [← timer,Function.update_eq_self]
    exact there
  | some a =>
    obtain ⟨w,us,stop,canceled⟩ := stop_canceled chain (listed a timer)
    refine meets_bind (meets_mono (onTimers_meets follows there stop) fun _ m ⟨there,more⟩ => ?_)
    refine meets_rest (Q := {R with timers := w,thTimer := Function.update R.thTimer t none}) follows there rfl
      (by simp) (fun n rest => by simp [rest]) (fun _ _ => rfl) (fun _ _ => rfl) ?_ ?_
    · exact fun s _ => timer_kept (fun same => real (same ▸ listed a timer)) timer
    intro n _ there last
    exact ⟨w,us,canceled,(calm.trans more).trans ((Kernel.links_setTimer n t none) ▸ last),there⟩

end Effects

/-- What a pass of the scheduler leaves of the lists and of the rest. -/
structure Onward (x y : Links) (L M : Lists) (R Q : Rest) : Prop where
  all : M.all = L.all
  run : ∀ t ∈ L.queue .bermudaRunQueue, t ∈ M.queue .bermudaRunQueue
  current : Q.current = R.current
  waiting : Q.waiting = R.waiting
  settled : Q.settled = R.settled
  loose : Loose x L none → Loose y M none

section Onward

variable {x y z : Links}

theorem Onward.start (L : Lists) (R : Rest) (calm : Calm u x y) : Onward x y L L R R :=
  ⟨rfl,fun _ inside => inside,rfl,rfl,rfl,fun loose => loose.calm calm⟩

theorem Onward.calm (first : Onward x y L M R Q) (calm : Calm u y z) : Onward x z L M R Q :=
  {first with loose := fun loose => (first.loose loose).calm calm}

theorem Onward.trans {S : Rest} (first : Onward x y L M R Q) (second : Onward y z M N Q S) : Onward x z L N R S :=
  ⟨second.all.trans first.all,fun t inside => second.run t (first.run t inside),
    second.current.trans first.current,second.waiting.trans first.waiting,
    second.settled.trans first.settled,fun loose => second.loose (first.loose loose)⟩

end Onward

/-- The first waiter of `q` was let through, and nothing else happened to the queues
that no interrupt signals. -/
structure Woken (u : Usage) (q : Addr) (x y : Links) (L M : Lists) : Prop where
  others : ∀ p, p ≠ q → M.queue (.event p) = L.queue (.event p) ∧
    (Quiet u p → Still x y p (L.queue (.event p)))
  own : ∀ t us, L.queue (.event q) = t::us → M.queue (.event q) = us ∧
    t ∈ M.queue .bermudaRunQueue ∧ (Quiet u q → Carried x y (t::us) us q)

theorem Carried.within {x y z o : Links} {ws us : List Addr} (first : Still x y q ws)
    (carried : Carried y z ws us q) (last : Still z o q us) : Carried x o ws us q := by
  constructor
  · intro more
    exact (last.count.trans (carried.1 more)).trans first.count
  · intro empty
    rw [last.word,carried.2 empty,first.count]

theorem Core.owned {lock : Addr → Prop} {x : Links} (core : Core lock x L) (locked : lock q)
    (holder : x.owners q ≠ []) : x.link (.event q) ≠ signaled :=
  fun signal => holder ((core.locks q locked).1.mp signal)

section Signal

variable {π : Type} {C : Contract Kernel Addr Op Int π} {op : Op}

/-- The critical section of `BermudaEventSignalRaw` that lets the first waiter through. -/
theorem handOver_stepped (here : At u L R k) (list : L.queue (.event q) = t::us)
    (current : R.current = me) (holder : u.lock q → R.owners q = [R.current])
    (about : u.lock q → op.signals = some q) :
    Stepped u op me L (L.set (.event q) us) R
      {R with owners := Function.update R.owners q (t::(R.owners q).erase R.current)} k
      ((detach (.event q) t k).handOver (.event q) t) ∧
    Removed k.links ((detach (.event q) t k).handOver (.event q) t).links (.event q) t [] us := by
  have queue : IsQueue (.event q) := trivial
  have front : L.queue (.event q) = [] ++ t::us := list
  obtain ⟨rem,rest⟩ := detach_removed here.core queue front
  rw [spot_nil] at rem rest
  have owners : (detach (.event q) t k).owners = R.owners := by
    rw [← here.rest]
    exact congrArg Rest.owners rest
  have running : (detach (.event q) t k).bermudaCurrentThread = R.current := by
    rw [← here.rest]
    exact congrArg Rest.current rest
  have links := Kernel.links_handOver (detach (.event q) t k) t q
  rw [owners,running] at links
  set m := (detach (.event q) t k).handOver (.event q) t with hm
  have removed : Removed k.links m.links (.event q) t [] us := by
    rw [links]
    exact ⟨rem.link,rem.ec,rem.prio,rem.queue,rem.arrived,rem.clock⟩
  have before : k.links.owners = R.owners := congrArg Rest.owners here.rest
  have after : m.links.owners = Function.update R.owners q (t::(R.owners q).erase R.current) := by
    rw [links]
  refine ⟨⟨here,⟨?_,?_,here.young⟩,fun p => ?_,fun _ _ => rfl,fun _ _ => rfl,fun _ _ _ => rfl,?_⟩,removed⟩
  · refine core_remove here.core queue front removed fun p locked => ?_
    rw [before,after]
    by_cases same : p = q
    · subst same
      rw [Function.update_self,holder locked]
      simp
    · rw [Function.update_of_ne same,← before]
      exact ⟨Iff.rfl,(here.core.locks p locked).2⟩
  · rw [hm,Kernel.rest_handOver,rest,here.rest,owners,running]
  · refine moved_wake here.core list removed ?_
    rw [after,before,current]
  · have others {p : Addr} (other : p ≠ q) :
        Function.update R.owners q (t::(R.owners q).erase R.current) p = R.owners p :=
      Function.update_of_ne other _ _
    refine ⟨fun p locked free taken => ?_,fun p locked _ changed => ?_,fun p out inside => ?_⟩
    · by_cases same : p = q
      · subst same
        rw [holder locked] at free
        cases free
      · exact absurd ((others same).trans free) taken
    · by_cases same : p = q
      · subst same
        exact about locked
      · exact absurd (others same) changed
    · refine absurd ?_ out
      by_cases same : p = q
      · subst same
        rw [list]
        exact List.mem_cons_of_mem _ (by simpa [Lists.set] using inside)
      · simpa [Lists.set,same] using inside

theorem signalRaw_meets (follows : Follows u op me C) (here : At u L R k) (sound : Sound u L R)
    (current : R.current = me)
    (holder : u.lock q → Holder L R q) (about : u.lock q → op.signals = some q) :
    Meets (scheduler u) C op me (bermudaEventSignalRaw (.event q)) (fun _ l => ∃ M Q, At u M Q l ∧
      Sound u M Q ∧ Onward k.links l.links L M R Q ∧ (u.lock q → me ∉ Q.owners q) ∧
      Woken u q k.links l.links L M) k := by
  have queue : IsQueue (.event q) := trivial
  have busy {l : Kernel} (there : At u L R l) (locked : u.lock q) :
      l.links.link (.event q) ≠ signaled := by
    have owners : l.links.owners q = [R.current] :=
      (congrFun (congrArg Rest.owners there.rest) q).trans (holder locked).owner
    exact there.core.owned locked (by simp [owners])
  unfold bermudaEventSignalRaw
  refine meets_bind (meets_get follows here fun l there calm => ?_)
  rcases list : L.queue (.event q) with _ | ⟨t,us⟩
  · have quiet {m : Kernel} (calm : Calm u k.links m.links) (p : Addr) :
        L.queue (.event p) = L.queue (.event p) ∧
          (Quiet u p → Still k.links m.links p (L.queue (.event p))) :=
      ⟨rfl,fun quiet => calm.still here.core quiet⟩
    rcases there.core.head queue with ⟨signal,_⟩ | ⟨free,head⟩
    · rw [if_pos (show l.link (.event q) = signaled from signal)]
      exact meets_pure ⟨L,R,there,sound,.start L R calm,fun locked => absurd signal (busy there locked),
        fun p _ => quiet calm p,by simp [list]⟩
    · rw [list] at head
      rw [if_neg (show l.link (.event q) ≠ signaled from free),
        show l.link (.event q) = none from head]
      refine meets_bind (meets_at follows there fun m there more => ?_)
      set n := (m.release (.event q)).setLink (.event q) signaled with hn
      have owners : n.links.owners = Function.update R.owners q ((R.owners q).erase R.current) := by
        rw [← there.rest]
        rfl
      have before : m.links.owners = R.owners := congrArg Rest.owners there.rest
      have core : Core u.lock n.links L := by
        refine core_word there.core list (.inr rfl) rfl rfl rfl rfl rfl rfl ?_ ?_
        · intro o other
          rw [owners,before,Function.update_of_ne other]
        · intro locked
          rw [owners,Function.update_self,(holder locked).owner]
          simp
      have after : At u L (R.release q) n := by
        refine ⟨core,?_,there.young⟩
        rw [← there.rest]
        rfl
      have moved (p : Addr) : Moved (Bounded u) me m.links n.links p (L.queue (.event p)) (L.queue (.event p)) ∧
          (p ≠ q → Still m.links n.links p (L.queue (.event p))) := by
        by_cases same : p = q
        · subst same
          rw [list]
          refine ⟨.post (by simp [hn]) ?_,fun other => absurd rfl other⟩
          rw [owners,before,current,Function.update_self]
        · have still : Still m.links n.links p (L.queue (.event p)) :=
            ⟨by simp [hn,same]; rfl,rfl⟩
          exact ⟨.keep still (by rw [owners,before,Function.update_of_ne same]),fun _ => still⟩
      have within : Within u op me L L R (R.release q) := by
        refine ⟨fun p locked none taken => ?_,fun p locked _ changed => ?_,fun p out inside => absurd inside out⟩
        all_goals by_cases same : p = q
        · subst same
          rw [(holder locked).owner] at none
          cases none
        · exact absurd ((Function.update_of_ne same _ _).trans none) taken
        · exact same ▸ about (same ▸ locked)
        · exact absurd (Function.update_of_ne same _ _) changed
      refine ⟨⟨L,_,there,after,fun p => (moved p).1,fun _ _ => rfl,fun _ _ => rfl,
        fun _ _ _ => rfl,within⟩,?_⟩
      refine meets_pure ⟨L,_,after,sound.release holder,⟨rfl,fun _ inside => inside,rfl,rfl,rfl,?_⟩,
        fun locked => ?_,fun p other => ⟨rfl,fun quiet => ?_⟩,by simp [list]⟩
      · exact fun loose => ((loose.calm calm).calm more).word rfl
      · simp [Rest.release,(holder locked).owner]
      · exact ((calm.trans more).still here.core quiet).trans ((moved p).2 other)
  · have inside : t ∈ L.queue (.event q) := by simp [list]
    have front : L.queue (.event q) = [] ++ t::us := list
    obtain ⟨ts,timed⟩ := sound.timed
    have real : some t ≠ signaled := fun last => here.core.real_thread inside (Option.some.inj last)
    rw [show l.link (.event q) = some t from there.core.first queue list,if_neg real]
    refine meets_bind (meets_at follows there fun l₂ there₂ calm₂ => ?_)
    obtain ⟨stepped,removed⟩ := handOver_stepped there₂ list current
      (fun locked => (holder locked).owner) about
    refine ⟨⟨_,_,stepped⟩,?_⟩
    have here₃ := stepped.after
    set m := (detach (.event q) t l₂).handOver (.event q) t
    clear_value m
    have floating : Floating (L.set (.event q) us) t :=
      set_floating there₂.core front
    refine meets_bind (meets_mono (cancelTimer_meets follows here₃ timed.chain timed.real fun a timer =>
      (timed.waiter q t inside a timer).1) ?_)
    rintro _ l₄ ⟨w,vs,canceled,calm₄,there₄⟩
    refine meets_bind (meets_rest (Q := R.wake q t w) follows there₄ rfl (by simp)
      (fun n rest => by rw [Kernel.rest_setState,rest]; rfl) (fun _ _ => rfl) (fun _ _ => rfl)
      (fun _ _ _ => rfl) ?_)
    intro l₅ _ there₅ calm₅
    refine meets_bind (meets_mono (add_meets follows there₅ sound.placed.grown trivial
      (here.core.known _ t inside) floating (by simp)) ?_)
    rintro _ l₆ ⟨before,after,split,there₆,still₆,loose₆⟩
    have free : Freed L _ (.event q) t :=
      freed here.core front (by simp) split
    have calm₃ : Calm u m.links (l₅.setState t .ready).links :=
      calm₄.trans ((Kernel.links_setState l₅ t .ready).symm ▸ calm₅)
    have late (p : Addr) (quiet : Quiet u p) :
        Still m.links l₆.links p ((L.set (.event q) us).queue (.event p)) :=
      (calm₃.still here₃.core quiet).trans (still₆ p quiet (by simp))
    refine meets_pure ⟨_,_,there₆,sound.wake timed list free canceled holder,
      ⟨rfl,fun s inside => free.run inside,rfl,rfl,rfl,?_⟩,fun locked => ?_,fun p other => ⟨?_,?_⟩,?_⟩
    · exact fun loose => loose₆ ((((loose.calm calm).calm calm₂).leave removed queue front).calm calm₃)
    · have apart : me ≠ t := by
        rintro rfl
        exact (holder locked).out (current ▸ inside)
      simp [Rest.wake,(holder locked).owner,apart]
    · exact free.away _ (by simpa using other) (by simp)
    · intro quiet
      have same : (L.set (.event q) us).queue (.event p) = L.queue (.event p) := by
        simp [Lists.set,other]
      have through := removed.still there₂.core front (q := p) (by simpa using other)
      exact (((calm.trans calm₂).still here.core quiet).trans through).trans (same ▸ late p quiet)
    · rintro s vs first
      obtain ⟨rfl,rfl⟩ := List.cons.inj (list.symm.trans first)
      refine ⟨free.left [] us list,(free.own _).mpr rfl,fun quiet => ?_⟩
      have through := removed.carried there₂.core front trivial rfl
      have own : (L.set (.event q) us).queue (.event q) = us := by simp [Lists.set]
      exact Carried.within (list ▸ (calm.trans calm₂).still here.core quiet) through
        (own ▸ late q quiet)

end Signal

end BermudaOS.Sys.Sched
