import BermudaOS.Sys.SchedQueues
import BermudaOS.Sys.VirtTimerChain

/-! What holds whenever a call of the kernel begins or ends: where the threads are, by
their state; whom the timers wake; who holds the locks. A call moves one thread at a
time, and the lemmas here say what that asks of the moved thread alone. -/
namespace BermudaOS.Sys.Sched
open VirtTimer Lib.Chains Lib.Program

/-- The states of the threads and the queues they are in. -/
structure Placed (u : Usage) (L : Lists) (R : Rest) : Prop where
  grown : L.newborn = none
  idle : u.idle ∈ L.queue .bermudaRunQueue
  stopped : ∀ t, R.state t = .waiting → Floating L t
  asleep : ∀ q, ∀ t ∈ L.queue (.event q), R.state t = .sleeping

/-- The listed timers are those of sleeping threads and of waits with a time-out, and
stopped ones. -/
structure Timed (L : Lists) (R : Rest) (ts : List Addr) : Prop where
  chain : Chain R.timers.next R.timers.bermudaTimerList ts
  once : ∀ a ∈ ts, (R.timers.node a).ticks = 0
  real : nowhere ∉ ts
  sleeper : ∀ a ∈ ts, (R.timers.node a).handle = some .bermudaThreadTimeout →
    ∀ t, (R.timers.node a).arg = t →
      t ∈ L.all ∧ Floating L t ∧ R.state t = .sleeping ∧ R.thTimer t = some a
  waiter : ∀ q, ∀ t ∈ L.queue (.event q), ∀ a, R.thTimer t = some a →
    a ∈ ts ∧ (R.timers.node a).handle = some .bermudaEventTmo ∧ (R.timers.node a).arg = q
  own : ∀ p q s t a, s ∈ L.queue (.event p) → t ∈ L.queue (.event q) →
    R.thTimer s = some a → R.thTimer t = some a → s = t
  event : ∀ a ∈ ts, (R.timers.node a).handle = some .bermudaEventTmo →
    ∃ t ∈ L.queue (.event (R.timers.node a).arg), R.thTimer t = some a

/-- A thread that waits for a lock owns it exactly if it was let through, and one that
took it or gave it away still has it or has it no more. -/
structure Locked (u : Usage) (L : Lists) (R : Rest) : Prop where
  held : ∀ t q b, R.waiting t = some (q,b) → u.lock q →
    (t ∈ L.queue (.event q) ∨ R.thTimer t = signaled → t ∈ R.owners q → b = true) ∧
      (t ∉ L.queue (.event q) → R.thTimer t ≠ signaled → t ∈ R.owners q)
  given : ∀ t q b, R.settled t = some (q,b) → u.lock q →
    (t ∈ R.owners q ↔ b = true) ∧ t ∉ L.queue (.event q)
  waits : ∀ q, ∀ t ∈ L.queue (.event q), ∃ b, R.waiting t = some (q,b)
  ended : ∀ t q b, R.waiting t = some (q,b) → t ∉ L.queue (.event q) →
    R.thTimer t = none ∨ R.thTimer t = signaled

structure Sound (u : Usage) (L : Lists) (R : Rest) : Prop where
  placed : Placed u L R
  timed : ∃ ts, Timed L R ts
  locked : Locked u L R

theorem Sound.congr {u : Usage} {L : Lists} {R Q : Rest} (sound : Sound u L R)
    (timers : Q.timers = R.timers) (waiting : Q.waiting = R.waiting)
    (settled : Q.settled = R.settled) (owners : Q.owners = R.owners)
    (thTimer : Q.thTimer = R.thTimer) (state : Q.state = R.state) : Sound u L Q := by
  obtain ⟨placed,⟨ts,timed⟩,locked⟩ := sound
  cases R
  cases Q
  dsimp only at timers waiting settled owners thTimer state
  subst timers waiting settled owners thTimer state
  exact ⟨⟨placed.grown,placed.idle,placed.stopped,placed.asleep⟩,
    ⟨ts,timed.chain,timed.once,timed.real,timed.sleeper,timed.waiter,timed.own,timed.event⟩,
    ⟨locked.held,locked.given,locked.waits,locked.ended⟩⟩

theorem Sound.timedBy {u : Usage} {L : Lists} {R : Rest} {ts : List Addr} (sound : Sound u L R)
    (chain : Chain R.timers.next R.timers.bermudaTimerList ts) : Timed L R ts := by
  obtain ⟨us,timed⟩ := sound.timed
  exact chain_unique timed.chain chain ▸ timed

/-- `R` with other fields of `t` alone. -/
structure Alike (R Q : Rest) (t : Addr) : Prop where
  state : ∀ s, s ≠ t → Q.state s = R.state s
  thTimer : ∀ s, s ≠ t → Q.thTimer s = R.thTimer s

variable {u : Usage} {L M N : Lists} {R Q : Rest} {me t : Addr} {r : Ref} {ts us : List Addr}

theorem Alike.refl (R : Rest) (t : Addr) : Alike R R t := ⟨fun _ _ => rfl,fun _ _ => rfl⟩

theorem Placed.move (placed : Placed u L R) (others : Others L M t) (alike : Alike R Q t)
    (grown : M.newborn = none) (idle : t = u.idle → t ∈ M.queue .bermudaRunQueue)
    (stopped : Q.state t = .waiting → Floating M t)
    (asleep : ∀ q, t ∈ M.queue (.event q) → Q.state t = .sleeping) : Placed u M Q := by
  refine ⟨grown,?_,fun s => ?_,fun q s inside => ?_⟩
  · by_cases same : u.idle = t
    · exact same ▸ idle same.symm
    · exact (others _ same _).mpr placed.idle
  · by_cases same : s = t
    · exact same ▸ stopped
    · rw [alike.state s same]
      exact fun waits => (placed.stopped s waits).others others same
  · by_cases same : s = t
    · subst same
      exact asleep q inside
    · rw [alike.state s same]
      exact placed.asleep q s ((others s same _).mp inside)

theorem Timed.move (timed : Timed L R ts) (others : Others L M t) (alike : Alike R Q t)
    (all : ∀ s ∈ L.all, s ∈ M.all) (chain : Chain Q.timers.next Q.timers.bermudaTimerList us)
    (once : ∀ a ∈ us, (Q.timers.node a).ticks = 0) (real : nowhere ∉ us)
    (sleeper : ∀ a ∈ us, (Q.timers.node a).handle = some .bermudaThreadTimeout →
      ((Q.timers.node a).arg = t ∧ t ∈ M.all ∧ Floating M t ∧ Q.state t = .sleeping ∧
        Q.thTimer t = some a) ∨
      ((Q.timers.node a).arg ≠ t ∧ a ∈ ts ∧
        (R.timers.node a).handle = some .bermudaThreadTimeout ∧
        (R.timers.node a).arg = (Q.timers.node a).arg))
    (waiter : ∀ s, s ≠ t → ∀ q, s ∈ L.queue (.event q) → ∀ a, R.thTimer s = some a →
      a ∈ us ∧ (Q.timers.node a).handle = (R.timers.node a).handle ∧
        (Q.timers.node a).arg = (R.timers.node a).arg)
    (own : ∀ q, t ∈ M.queue (.event q) → ∀ a, Q.thTimer t = some a →
      a ∈ us ∧ (Q.timers.node a).handle = some .bermudaEventTmo ∧ (Q.timers.node a).arg = q ∧
        a ∉ ts)
    (event : ∀ a ∈ us, (Q.timers.node a).handle = some .bermudaEventTmo →
      (t ∈ M.queue (.event (Q.timers.node a).arg) ∧ Q.thTimer t = some a) ∨
      (a ∈ ts ∧ (R.timers.node a).handle = some .bermudaEventTmo ∧
        (R.timers.node a).arg = (Q.timers.node a).arg ∧
        (t ∈ L.queue (.event (R.timers.node a).arg) → R.thTimer t ≠ some a))) : Timed M Q us := by
  have before {s q : Addr} (other : s ≠ t) (inside : s ∈ M.queue (.event q)) {a : Addr}
      (timer : Q.thTimer s = some a) : s ∈ L.queue (.event q) ∧ R.thTimer s = some a :=
    ⟨(others s other _).mp inside,alike.thTimer s other ▸ timer⟩
  have apart {s q a : Addr} (other : s ≠ t) (inside : s ∈ M.queue (.event q))
      (timer : Q.thTimer s = some a) : a ∈ ts := by
    obtain ⟨old,same⟩ := before other inside timer
    exact (timed.waiter q s old a same).1
  refine ⟨chain,once,real,?_,?_,?_,?_⟩
  · rintro a inside handle s rfl
    rcases sleeper a inside handle with ⟨same,clause⟩ | ⟨other,old,fires,arg⟩
    · rw [same]
      exact clause
    · obtain ⟨known,floating,sleeping,timer⟩ := timed.sleeper a old fires _ arg
      rw [alike.state _ other,alike.thTimer _ other]
      exact ⟨all _ known,floating.others others other,sleeping,timer⟩
  · intro q s inside a timer
    by_cases same : s = t
    · subst same
      obtain ⟨listed,handle,arg,_⟩ := own q inside a timer
      exact ⟨listed,handle,arg⟩
    · obtain ⟨old,still⟩ := before same inside timer
      obtain ⟨listed,handle,arg⟩ := waiter s same q old a still
      obtain ⟨_,fires,queue⟩ := timed.waiter q s old a still
      exact ⟨listed,handle.trans fires,arg.trans queue⟩
  · intro p q s v a first second left right
    by_cases same : s = t
    · by_cases equal : v = t
      · exact same.trans equal.symm
      · exact absurd (apart equal second right) (own p (same ▸ first) a (same ▸ left)).2.2.2
    · by_cases equal : v = t
      · exact absurd (apart same first left) (own q (equal ▸ second) a (equal ▸ right)).2.2.2
      · obtain ⟨old,still⟩ := before same first left
        obtain ⟨again,too⟩ := before equal second right
        exact timed.own p q s v a old again still too
  · intro a inside handle
    rcases event a inside handle with ⟨member,timer⟩ | ⟨old,fires,arg,apart⟩
    · exact ⟨t,member,timer⟩
    · obtain ⟨s,member,timer⟩ := timed.event a old fires
      have other : s ≠ t := by
        rintro rfl
        exact apart member timer
      rw [← arg]
      exact ⟨s,(others s other _).mpr member,(alike.thTimer s other).trans timer⟩

theorem Timed.keep (timed : Timed L R ts) (others : Others L M t) (alike : Alike R Q t)
    (all : ∀ s ∈ L.all, s ∈ M.all) (timers : Q.timers = R.timers)
    (awake : ∀ a ∈ ts, (R.timers.node a).handle = some .bermudaThreadTimeout →
      (R.timers.node a).arg ≠ t) (was : ∀ q, t ∉ L.queue (.event q))
    (out : ∀ q, t ∉ M.queue (.event q)) : Timed M Q ts := by
  refine timed.move others alike all (timers ▸ timed.chain) (timers ▸ timed.once) timed.real ?_ ?_
    (fun q inside => absurd inside (out q)) ?_
  · intro a inside handle
    rw [timers] at handle ⊢
    exact .inr ⟨awake a inside handle,inside,handle,rfl⟩
  · intro s _ q inside a timer
    rw [timers]
    exact ⟨(timed.waiter q s inside a timer).1,rfl,rfl⟩
  · intro a inside handle
    rw [timers] at handle ⊢
    exact .inr ⟨inside,handle,rfl,fun member => absurd member (was _)⟩

/-- No timer wakes a thread that is in a queue, or is not asleep. -/
theorem Timed.awake (timed : Timed L R ts) (active : (∃ r, t ∈ L.queue r) ∨ R.state t ≠ .sleeping) :
    ∀ a ∈ ts, (R.timers.node a).handle = some .bermudaThreadTimeout → (R.timers.node a).arg ≠ t := by
  intro a inside handle same
  obtain ⟨_,floating,sleeping,_⟩ := timed.sleeper a inside handle t same
  rcases active with ⟨r,member⟩ | awake
  · exact floating r member
  · exact awake sleeping

theorem Locked.move (locked : Locked u L R) (others : Others L M t) (alike : Alike R Q t)
    (owners : ∀ q, u.lock q → ∀ s, s ≠ t → (s ∈ Q.owners q ↔ s ∈ R.owners q))
    (waiting : ∀ s, s ≠ t → Q.waiting s = R.waiting s)
    (settled : ∀ s, s ≠ t → Q.settled s = R.settled s)
    (held : ∀ q b, Q.waiting t = some (q,b) → u.lock q →
      (t ∈ M.queue (.event q) ∨ Q.thTimer t = signaled → t ∈ Q.owners q → b = true) ∧
        (t ∉ M.queue (.event q) → Q.thTimer t ≠ signaled → t ∈ Q.owners q))
    (given : ∀ q b, Q.settled t = some (q,b) → u.lock q →
      (t ∈ Q.owners q ↔ b = true) ∧ t ∉ M.queue (.event q))
    (inside : ∀ q, t ∈ M.queue (.event q) → ∃ b, Q.waiting t = some (q,b))
    (ended : ∀ q b, Q.waiting t = some (q,b) → t ∉ M.queue (.event q) →
      Q.thTimer t = none ∨ Q.thTimer t = signaled) : Locked u M Q := by
  refine ⟨fun s q b waits lock => ?_,fun s q b turned lock => ?_,fun q s member => ?_,
    fun s q b waits absent => ?_⟩
  · by_cases same : s = t
    · subst same
      exact held q b waits lock
    · rw [others s same,alike.thTimer s same,owners q lock s same]
      exact locked.held s q b (waiting s same ▸ waits) lock
  · by_cases same : s = t
    · subst same
      exact given q b turned lock
    · rw [others s same,owners q lock s same]
      exact locked.given s q b (settled s same ▸ turned) lock
  · by_cases same : s = t
    · subst same
      exact inside q member
    · rw [waiting s same]
      exact locked.waits q s ((others s same _).mp member)
  · by_cases same : s = t
    · subst same
      exact ended q b waits absent
    · rw [others s same] at absent
      rw [alike.thTimer s same]
      exact locked.ended s q b (waiting s same ▸ waits) absent

theorem Locked.keep (locked : Locked u L R) (others : Others L M t) (alike : Alike R Q t)
    (owners : Q.owners = R.owners) (waiting : Q.waiting = R.waiting)
    (settled : Q.settled = R.settled)
    (queues : ∀ q, t ∈ M.queue (.event q) ↔ t ∈ L.queue (.event q))
    (timer : Q.thTimer t = signaled ↔ R.thTimer t = signaled)
    (ended : Q.thTimer t = none ∨ Q.thTimer t = R.thTimer t) : Locked u M Q := by
  refine locked.move others alike (fun q _ s _ => by rw [owners]) (fun s _ => congrFun waiting s)
    (fun s _ => congrFun settled s) ?_ ?_ ?_ ?_
  · intro q b waits lock
    rw [waiting] at waits
    rw [queues,timer,ne_eq,timer,owners]
    exact locked.held t q b waits lock
  · intro q b turned lock
    rw [settled] at turned
    rw [queues,owners]
    exact locked.given t q b turned lock
  · intro q inside
    rw [waiting]
    exact locked.waits q t ((queues q).mp inside)
  · intro q b waits absent
    rw [waiting] at waits
    rw [queues] at absent
    rcases ended with none | same
    · exact .inl none
    · rw [same]
      exact locked.ended t q b waits absent

end BermudaOS.Sys.Sched
