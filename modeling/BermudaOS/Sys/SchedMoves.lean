import BermudaOS.Sys.SchedPasses

/-! What the running thread does to its own place and state, and to a thread that it
creates or notifies. Each move keeps what holds between calls. -/
namespace BermudaOS.Sys.Sched
open VirtTimer VirtTimer.Timers Lib.Chains Lib.Program

variable {u : Usage} {L M N : Lists} {R Q : Rest} {k l : Kernel} {me t a q : Addr}
  {ts us before after : List Addr} {w : Timers Callback}

theorem Sound.place (sound : Sound u L R) (runs : Runs L M t) (alike : Alike R Q t)
    (timers : Q.timers = R.timers) (owners : Q.owners = R.owners) (waiting : Q.waiting = R.waiting)
    (settled : Q.settled = R.settled) (thTimer : Q.thTimer t = R.thTimer t)
    (state : Q.state t ≠ .waiting)
    (awake : (∃ r, t ∈ L.queue r) ∨ R.state t ≠ .sleeping) (out : ∀ q, t ∉ L.queue (.event q)) :
    Sound u M Q := by
  obtain ⟨ts,timed⟩ := sound.timed
  refine ⟨?_,⟨ts,timed.keep runs.others alike runs.known timers (timed.awake awake) out runs.out⟩,?_⟩
  · exact sound.placed.move runs.others alike (runs.newborn.trans sound.placed.grown)
      (fun _ => (runs.own _).mpr rfl) (fun waits => absurd waits state)
      fun q inside => absurd inside (runs.out q)
  · refine sound.locked.keep runs.others alike owners waiting settled (fun q => ?_) (by rw [thTimer])
      (.inr thTimer)
    exact ⟨fun inside => absurd inside (runs.out q),fun inside => absurd inside (out q)⟩

theorem Sound.state (sound : Sound u L R) {s : ThreadState} (state : s ≠ .waiting)
    (awake : (∃ r, t ∈ L.queue r) ∨ R.state t ≠ .sleeping) (out : ∀ q, t ∉ L.queue (.event q)) :
    Sound u L {R with state := Function.update R.state t s} := by
  have alike : Alike R {R with state := Function.update R.state t s} t :=
    ⟨fun _ other => Function.update_of_ne other _ _,fun _ _ => rfl⟩
  obtain ⟨ts,timed⟩ := sound.timed
  refine ⟨?_,⟨ts,timed.keep (.refl L t) alike (fun _ inside => inside) rfl (timed.awake awake) out out⟩,?_⟩
  · refine sound.placed.move (.refl L t) alike sound.placed.grown
      (fun same => same ▸ sound.placed.idle) (fun waits => ?_) fun q inside => absurd inside (out q)
    exact absurd ((Function.update_self _ _ _).symm.trans waits) state
  · exact sound.locked.keep (.refl L t) alike rfl rfl rfl (fun _ => Iff.rfl) Iff.rfl (.inr rfl)

theorem Sound.stop {lock : Addr → Prop} {x : Links} (core : Core lock x L) (sound : Sound u L R)
    (list : L.queue .bermudaRunQueue = before ++ t::after) (other : t ≠ u.idle) :
    Sound u (L.set .bermudaRunQueue (before ++ after))
      {R with state := Function.update R.state t .waiting} := by
  have alike : Alike R {R with state := Function.update R.state t .waiting} t :=
    ⟨fun _ other => Function.update_of_ne other _ _,fun _ _ => rfl⟩
  have inside : t ∈ L.queue .bermudaRunQueue := by simp [list]
  have floating := set_floating core list
  have others := others_remove list
  obtain ⟨ts,timed⟩ := sound.timed
  refine ⟨?_,⟨ts,timed.keep others alike (fun _ inside => inside) rfl (timed.awake (.inl ⟨_,inside⟩))
    (fun q within => absurd (core.alone _ _ t within inside) (by simp)) fun q => floating _⟩,?_⟩
  · exact sound.placed.move others alike sound.placed.grown (fun same => absurd same other)
      (fun _ => floating) fun q inside => absurd inside (floating _)
  · refine sound.locked.keep others alike rfl rfl rfl (fun q => ?_) Iff.rfl (.inr rfl)
    simp [Lists.set]

/-- A timer that was made for a wait. -/
structure Made (v w : Timers Callback) (ts us : List Addr) (a : Addr) (fn : Callback) (arg : Addr) :
    Prop where
  chain : Chain w.next w.bermudaTimerList us
  members : ∀ b, b ∈ us ↔ b = a ∨ b ∈ ts
  fresh : a ∉ ts
  real : a ≠ nowhere
  own : (w.node a).handle = some fn ∧ (w.node a).arg = arg ∧ (w.node a).ticks = 0
  others : ∀ b, b ≠ a → (w.node b).handle = (v.node b).handle ∧
    (w.node b).arg = (v.node b).arg ∧ (w.node b).ticks = (v.node b).ticks

theorem Made.once (made : Made R.timers w ts us a fn arg) (timed : Timed L R ts) :
    ∀ b ∈ us, (w.node b).ticks = 0 := by
  intro b inside
  rcases (made.members b).mp inside with rfl | old
  · exact made.own.2.2
  · have apart : b ≠ a := fun same => made.fresh (same ▸ old)
    exact (made.others b apart).2.2.trans (timed.once b old)

theorem Made.last (made : Made R.timers w ts us a fn arg) (timed : Timed L R ts) : nowhere ∉ us := by
  intro inside
  rcases (made.members _).mp inside with same | old
  · exact made.real same.symm
  · exact timed.real old

theorem Made.kept (made : Made R.timers w ts us a fn arg) {b : Addr} (old : b ∈ ts) :
    b ∈ us ∧ (w.node b).handle = (R.timers.node b).handle ∧
      (w.node b).arg = (R.timers.node b).arg := by
  have apart : b ≠ a := fun same => made.fresh (same ▸ old)
  exact ⟨(made.members b).mpr (.inr old),(made.others b apart).1,(made.others b apart).2.1⟩

/-- The running thread sleeps, with a timer to wake it. -/
def Rest.sleep (R : Rest) (t a : Addr) (w : Timers Callback) : Rest :=
  {R with state := Function.update R.state t .sleeping
          timers := w
          thTimer := Function.update R.thTimer t (some a)}

theorem Sound.sleep {lock : Addr → Prop} {x : Links} (core : Core lock x L) (sound : Sound u L R)
    (timed : Timed L R ts) (list : L.queue .bermudaRunQueue = before ++ t::after)
    (other : t ≠ u.idle) (made : Made R.timers w ts us a .bermudaThreadTimeout t)
    (unwaited : R.waiting t = none) :
    Sound u (L.set .bermudaRunQueue (before ++ after)) (R.sleep t a w) := by
  have alike : Alike R (R.sleep t a w) t :=
    ⟨fun _ other => Function.update_of_ne other _ _,fun _ other => Function.update_of_ne other _ _⟩
  have inside : t ∈ L.queue .bermudaRunQueue := by simp [list]
  have floating := set_floating core list
  have others := others_remove list
  have sleeping : (R.sleep t a w).state t = .sleeping := Function.update_self _ _ _
  refine ⟨?_,⟨us,timed.move others alike (fun _ known => known) made.chain (made.once timed)
    (made.last timed) (fun b listed handle => ?_) (fun s _ q member b timer => ?_)
    (fun q within => absurd within (floating _)) fun b listed handle => ?_⟩,?_⟩
  · refine sound.placed.move others alike sound.placed.grown (fun same => absurd same other)
      (fun waits => ?_) fun q within => absurd within (floating _)
    rw [sleeping] at waits
    cases waits
  · change (w.node b).handle = _ at handle
    rcases (made.members b).mp listed with rfl | old
    · exact .inl ⟨made.own.2.1,core.known _ t inside,floating,sleeping,Function.update_self _ _ _⟩
    · obtain ⟨_,same,arg⟩ := made.kept old
      have fires := same.symm.trans handle
      refine .inr ⟨fun target => ?_,old,fires,arg.symm⟩
      exact timed.awake (.inl ⟨_,inside⟩) b old fires (arg.symm.trans target)
  · exact made.kept (timed.waiter q s member b timer).1
  · change (w.node b).handle = _ at handle
    have apart (q : Addr) (within : t ∈ L.queue (.event q)) : False :=
      absurd (core.alone _ _ t within inside) (by simp)
    rcases (made.members b).mp listed with rfl | old
    · rw [made.own.1] at handle
      cases handle
    · obtain ⟨_,same,arg⟩ := made.kept old
      exact .inr ⟨old,same.symm.trans handle,arg.symm,fun within => (apart _ within).elim⟩
  · refine sound.locked.move others alike (fun _ _ _ _ => Iff.rfl) (fun _ _ => rfl) (fun _ _ => rfl)
      (fun p b waits => ?_) (fun p b turned lock => ?_) (fun p within => absurd within (floating _))
      fun p b waits => ?_
    · exact absurd (unwaited.symm.trans waits) (by simp)
    · exact ⟨(sound.locked.given t p b turned lock).1,floating _⟩
    · exact absurd (unwaited.symm.trans waits) (by simp)

/-- The running thread waits in queue `q`, with this timer if it has one. -/
def Rest.join (R : Rest) (t q : Addr) (timer : Option Addr) (w : Timers Callback) : Rest :=
  {R with state := Function.update R.state t .sleeping
          timers := w
          thTimer := Function.update R.thTimer t timer
          waiting := Function.update R.waiting t (some (q,decide (t ∈ R.owners q)))}

/-- The timers of a wait: one more, or none without a time-out. -/
inductive Waits (v w : Timers Callback) (ts us : List Addr) (q : Addr) : Option Addr → Prop
  | endless (timers : w = v) (same : us = ts) : Waits v w ts us q none
  | timed {a : Addr} (made : Made v w ts us a .bermudaEventTmo q) : Waits v w ts us q (some a)

theorem Sound.join {timer : Option Addr} (sound : Sound u L R) (timed : Timed L R ts)
    (inside : t ∈ L.queue .bermudaRunQueue) (was : ∀ q, t ∉ L.queue (.event q))
    (other : t ≠ u.idle) (others : Others L M t) (own : ∀ p, t ∈ M.queue p ↔ p = .event q)
    (all : M.all = L.all) (newborn : M.newborn = L.newborn) (waits : Waits R.timers w ts us q timer)
    (unsettled : R.settled t = none) : Sound u M (R.join t q timer w) := by
  have alike : Alike R (R.join t q timer w) t :=
    ⟨fun _ other => Function.update_of_ne other _ _,fun _ other => Function.update_of_ne other _ _⟩
  have sleeping : (R.join t q timer w).state t = .sleeping := Function.update_self _ _ _
  have known (s : Addr) (member : s ∈ L.all) : s ∈ M.all := by
    rw [all]
    exact member
  have awake := timed.awake (.inl ⟨_,inside⟩)
  have once : ∀ b ∈ us, (w.node b).ticks = 0 := by
    cases waits with
    | endless timers same => rw [timers,same]; exact timed.once
    | timed made => exact made.once timed
  have kept {b : Addr} (old : b ∈ ts) : b ∈ us ∧
      (w.node b).handle = (R.timers.node b).handle ∧ (w.node b).arg = (R.timers.node b).arg := by
    cases waits with
    | endless timers same => rw [timers,same]; exact ⟨old,rfl,rfl⟩
    | timed made => exact made.kept old
  refine ⟨?_,⟨us,timed.move others alike known ?_ once ?_ (fun b listed handle => ?_)
    (fun s _ q member b timer => kept (timed.waiter q s member b timer).1) (fun p within b same => ?_)
    fun b listed handle => ?_⟩,?_⟩
  · refine sound.placed.move others alike (newborn.trans sound.placed.grown)
      (fun same => absurd same other) (fun stopped => ?_) fun _ _ => sleeping
    rw [sleeping] at stopped
    cases stopped
  · cases waits with
    | endless timers same => rw [same]; exact timers ▸ timed.chain
    | timed made => exact made.chain
  · cases waits with
    | endless timers same => rw [same]; exact timed.real
    | timed made => exact made.last timed
  · change (w.node b).handle = _ at handle
    have old : b ∈ ts := by
      cases waits with
      | endless timers same => exact same ▸ listed
      | timed made =>
        rcases (made.members b).mp listed with rfl | old
        · rw [made.own.1] at handle
          cases handle
        · exact old
    obtain ⟨_,same,arg⟩ := kept old
    have fires := same.symm.trans handle
    exact .inr ⟨fun target => awake b old fires (arg.symm.trans target),old,fires,arg.symm⟩
  · have queue := (own _).mp within
    injection queue with queue
    have equal : timer = some b := by
      have own : (R.join t q timer w).thTimer t = timer := Function.update_self _ _ _
      exact own.symm.trans same
    cases waits with
    | endless => cases equal
    | timed made =>
      obtain rfl := Option.some.inj equal
      exact ⟨(made.members _).mpr (.inl rfl),made.own.1,made.own.2.1.trans queue.symm,made.fresh⟩
  · change (w.node b).handle = _ at handle
    have still (old : b ∈ ts) : b ∈ ts ∧ (R.timers.node b).handle = some .bermudaEventTmo ∧
        (R.timers.node b).arg = (w.node b).arg ∧
        (t ∈ L.queue (.event (R.timers.node b).arg) → R.thTimer t ≠ some b) := by
      obtain ⟨_,same,arg⟩ := kept old
      exact ⟨old,same.symm.trans handle,arg.symm,fun within => absurd within (was _)⟩
    cases waits with
    | endless timers same => exact .inr (still (same ▸ listed))
    | timed made =>
      rcases (made.members b).mp listed with rfl | old
      · refine .inl ⟨(own _).mpr ?_,Function.update_self _ _ _⟩
        exact congrArg Ref.event made.own.2.1
      · exact .inr (still old)
  · have waiting : (R.join t q timer w).waiting t = some (q,decide (t ∈ R.owners q)) :=
      Function.update_self _ _ _
    refine sound.locked.move others alike (fun _ _ _ _ => Iff.rfl)
      (fun _ other => Function.update_of_ne other _ _) (fun _ _ => rfl)
      (fun p b same _ => ?_) (fun p b turned => ?_) (fun p within => ?_)
      fun p b same absent => ?_
    · rw [waiting] at same
      obtain ⟨rfl,rfl⟩ : q = p ∧ decide (t ∈ R.owners q) = b := by simpa using same
      exact ⟨fun _ owner => decide_eq_true owner,fun out => absurd ((own _).mpr rfl) out⟩
    · exact absurd (unsettled.symm.trans turned) (by simp)
    · have queue := (own _).mp within
      injection queue with queue
      rw [queue]
      exact ⟨_,waiting⟩
    · rw [waiting] at same
      obtain ⟨rfl,_⟩ : q = p ∧ decide (t ∈ R.owners q) = b := by simpa using same
      exact absurd ((own _).mpr rfl) absent

/-- The running thread finds a signaled queue and takes it. -/
def Rest.take (R : Rest) (t q : Addr) : Rest :=
  {R with owners := Function.update R.owners q (t::R.owners q)
          settled := Function.update R.settled t (some (q,true))}

theorem Sound.take (sound : Sound u L R) (free : u.lock q → R.owners q = [])
    (empty : L.queue (.event q) = []) (unwaited : R.waiting t = none) :
    Sound u L (R.take t q) := by
  have others {p : Addr} (other : p ≠ q) : (R.take t q).owners p = R.owners p :=
    Function.update_of_ne other _ _
  have own : (R.take t q).owners q = t::R.owners q := Function.update_self _ _ _
  have settled : (R.take t q).settled t = some (q,true) := Function.update_self _ _ _
  obtain ⟨ts,timed⟩ := sound.timed
  refine ⟨⟨sound.placed.grown,sound.placed.idle,sound.placed.stopped,sound.placed.asleep⟩,
    ⟨ts,timed.chain,timed.once,timed.real,timed.sleeper,timed.waiter,timed.own,timed.event⟩,?_⟩
  refine sound.locked.move (.refl L t) ⟨fun _ _ => rfl,fun _ _ => rfl⟩ (fun p lock s other => ?_)
    (fun _ _ => rfl) (fun _ other => Function.update_of_ne other _ _) (fun p b waits => ?_)
    (fun p b turned lock => ?_)
    (fun p inside => sound.locked.waits p t inside) fun p b waits => ?_
  · by_cases same : p = q
    · subst same
      simp [own,free lock,other]
    · rw [others same]
  · exact absurd (unwaited.symm.trans waits) (by simp)
  · rw [settled] at turned
    obtain ⟨rfl,rfl⟩ : q = p ∧ true = b := by simpa using turned
    rw [own,empty]
    simp
  · exact absurd (unwaited.symm.trans waits) (by simp)

theorem Sound.record (sound : Sound u L R) (timer : Option Addr) (waits turned : Option (Addr × Bool))
    (inside : t ∈ L.queue .bermudaRunQueue)
    (core : ∀ r, t ∈ L.queue r → r = .bermudaRunQueue)
    (held : waits = none ∨ waits = R.waiting t ∧ timer = R.thTimer t)
    (given : ∀ q b, turned = some (q,b) → u.lock q → (t ∈ R.owners q ↔ b = true)) :
    Sound u L {R with thTimer := Function.update R.thTimer t timer
                      waiting := Function.update R.waiting t waits
                      settled := Function.update R.settled t turned} := by
  have out (q : Addr) : t ∉ L.queue (.event q) := fun within => absurd (core _ within) (by simp)
  set S : Rest := {R with thTimer := Function.update R.thTimer t timer
                          waiting := Function.update R.waiting t waits
                          settled := Function.update R.settled t turned}
  have alike : Alike R S t := ⟨fun _ _ => rfl,fun _ other => Function.update_of_ne other _ _⟩
  have waiting : S.waiting t = waits := Function.update_self _ _ _
  have settled : S.settled t = turned := Function.update_self _ _ _
  have thTimer : S.thTimer t = timer := Function.update_self _ _ _
  obtain ⟨ts,timed⟩ := sound.timed
  refine ⟨⟨sound.placed.grown,sound.placed.idle,sound.placed.stopped,sound.placed.asleep⟩,
    ⟨ts,timed.keep (.refl L t) alike (fun _ known => known) rfl (timed.awake (.inl ⟨_,inside⟩)) out
      out⟩,sound.locked.move (.refl L t) alike (fun _ _ _ _ => Iff.rfl)
      (fun _ other => Function.update_of_ne other _ _) (fun _ other => Function.update_of_ne other _ _)
      (fun q b same lock => ?_) (fun q b same lock => ?_) (fun q within => absurd within (out q))
      fun q b same absent => ?_⟩
  · rw [waiting] at same
    rcases held with rfl | ⟨rfl,rfl⟩
    · cases same
    · rw [thTimer]
      exact sound.locked.held t q b same lock
  · rw [settled] at same
    exact ⟨given q b same lock,out q⟩
  · rw [waiting] at same
    rcases held with rfl | ⟨rfl,rfl⟩
    · cases same
    · rw [thTimer]
      exact sound.locked.ended t q b same absent

theorem Sound.birth (sound : Sound u L R) (fresh : t ∉ L.all) (floating : Floating L t)
    (split : L.queue .bermudaRunQueue = before ++ after) (alike : Alike R Q t)
    (timers : Q.timers = R.timers) (owners : Q.owners = R.owners) (waiting : Q.waiting = R.waiting)
    (settled : Q.settled = R.settled) (thTimer : Q.thTimer = R.thTimer) (state : Q.state t = .ready) :
    Sound u (Lists.set {L with all := t::L.all} .bermudaRunQueue (before ++ t::after)) Q := by
  have others : Others L (Lists.set {L with all := t::L.all} .bermudaRunQueue (before ++ t::after)) t :=
    others_insert (L := {L with all := t::L.all}) split
  have own (p : Ref) : t ∈ (Lists.set {L with all := t::L.all} .bermudaRunQueue
      (before ++ t::after)).queue p ↔ p = .bermudaRunQueue :=
    mem_insert (L := {L with all := t::L.all}) floating
  have out (q : Addr) : t ∉ (Lists.set {L with all := t::L.all} .bermudaRunQueue
      (before ++ t::after)).queue (.event q) := fun inside => absurd ((own _).mp inside) (by simp)
  obtain ⟨ts,timed⟩ := sound.timed
  refine ⟨?_,⟨ts,timed.keep others alike (fun s known => List.mem_cons_of_mem _ known) timers
    (fun a inside handle same => ?_) (fun q => floating _) out⟩,?_⟩
  · refine sound.placed.move others alike sound.placed.grown (fun _ => (own _).mpr rfl)
      (fun waits => ?_) fun q inside => absurd inside (out q)
    rw [state] at waits
    cases waits
  · exact fresh (timed.sleeper a inside handle t same).1
  · refine sound.locked.keep others alike owners waiting settled (fun q => ?_) (by rw [thTimer])
      (.inr (by rw [thTimer]))
    exact ⟨fun inside => absurd inside (out q),fun inside => absurd inside (floating _)⟩

end BermudaOS.Sys.Sched
