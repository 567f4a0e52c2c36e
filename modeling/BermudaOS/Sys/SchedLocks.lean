import BermudaOS.Sys.SchedOrder

/-! Event queues as locks. A lock has at most one owner, its word is signaled exactly
while it has none, and it changes hands only in one of three ways: a thread takes a
free lock, its owner gives it back while nobody waits, or the owner passes it to the
first of the waiters. -/
namespace BermudaOS.Sys.Sched
open VirtTimer Lib.Chains Lib.Program

variable {u : Usage} {k l : Kernel} {me q : Addr} {c d : Config Kernel Addr Op Int}

/-- The threads that a queue links, in its order. -/
def Queued (k : Kernel) (r : Ref) (ws : List Addr) : Prop :=
  k.link r = signaled ∧ ws = [] ∨ k.link r ≠ signaled ∧ Chain k.next (k.link r) ws

abbrev Waiters (k : Kernel) (q : Addr) (ws : List Addr) : Prop := Queued k (.event q) ws

theorem Queued.unique {r : Ref} {ws us : List Addr} (waits : Queued k r ws) (also : Queued k r us) :
    ws = us := by
  rcases waits with ⟨signal,rfl⟩ | ⟨busy,chain⟩
  · rcases also with ⟨_,rfl⟩ | ⟨busy,_⟩
    · rfl
    · exact absurd signal busy
  · rcases also with ⟨signal,_⟩ | ⟨_,again⟩
    · exact absurd signal busy
    · exact chain_unique chain again

theorem At.queued {L : Lists} {R : Rest} {r : Ref} (here : At u L R k) (queue : IsQueue r) :
    Queued k r (L.queue r) := by
  by_cases signal : k.link r = signaled
  · exact .inl ⟨signal,here.core.word r queue signal⟩
  · exact .inr ⟨signal,here.core.chain r queue signal⟩

theorem At.waiters {L : Lists} {R : Rest} (here : At u L R k) (q : Addr) :
    Waiters k q (L.queue (.event q)) := here.queued trivial

/-- What one step does to the owner of a lock with the waiters `ws`. A waiter that gets
it has the smallest priority value, and among equals it has waited longest. -/
inductive Passed (me : Addr) (k l : Kernel) (q : Addr) (ws : List Addr) : Prop
  | keep (same : l.owners q = k.owners q)
  | take (free : k.owners q = []) (taken : l.owners q = [me])
  | release (alone : ws = []) (held : k.owners q = [me]) (free : l.owners q = [])
  | handOver (t : Addr) (us : List Addr) (waits : ws = t::us) (held : k.owners q = [me])
      (passed : l.owners q = [t]) (first : ∀ s ∈ us, (k.thread t).prio < (k.thread s).prio ∨
        (k.thread t).prio = (k.thread s).prio ∧ k.arrived t < k.arrived s)

theorem Stepped.passed {L M : Lists} {R Q : Rest} (stepped : Stepped u op me L M R Q k l)
    (locked : u.lock q) : Passed me k l q (L.queue (.event q)) := by
  obtain ⟨before,short⟩ := stepped.before.core.locks q locked
  obtain ⟨after,_⟩ := stepped.after.core.locks q locked
  have moved := stepped.moved q
  have word := stepped.before.core.unsignaled (r := .event q) trivial
  have sorted := stepped.before.core.sorted (.event q)
  -- an owner of a lock that loses it leaves nobody behind
  have owner (held : k.links.owners q ≠ []) (gone : (k.links.owners q).erase me = []) :
      k.links.owners q = [me] := by
    match owners : k.links.owners q with
    | [] => exact absurd owners held
    | [i] =>
      rw [owners] at gone
      by_cases same : i = me
      · rw [same]
      · simp [same] at gone
    | _::_::_ => simp [owners] at short
  generalize L.queue (.event q) = ws at moved word sorted ⊢
  generalize M.queue (.event q) = us at moved
  cases moved with
  | keep _ owners => exact .keep owners
  | deliver _ _ owners => exact .keep owners
  | join _ _ _ owners => exact .keep owners
  | timeout _ _ _ owners => exact .keep owners
  | reset _ _ owners => exact .keep owners
  | take signal _ owners =>
    have free := before.mp signal
    exact .take free (by rw [free] at owners; exact owners)
  | @wake us t carried owners =>
    have held : k.links.owners q ≠ [] := fun free => word (by simp) (before.mpr free)
    have single := (stepped.after.core.locks q locked).2
    rw [owners,List.length_cons] at single
    have gone : (k.links.owners q).erase me = [] := List.length_eq_zero_iff.mp (by omega)
    refine .handOver t us rfl (owner held gone) (by rw [gone] at owners; exact owners) fun s inside => ?_
    exact List.rel_of_pairwise_cons sorted inside
  | post signal owners =>
    have gone : (k.links.owners q).erase me = [] := owners.symm.trans (after.mp signal)
    by_cases held : k.links.owners q = []
    · rw [held,List.erase_nil] at owners
      exact .keep (owners.trans held.symm)
    · exact .release rfl (owner held gone) (after.mp signal)

/-- The lock `q`, in a state of a run: who owns it, and what the calls in progress say
about it when they return. -/
structure Exclusive (u : Usage) (q : Addr) (c : Config Kernel Addr Op Int) : Prop where
  single : (c.state.owners q).length ≤ 1
  word : c.state.link (.event q) = signaled ↔ c.state.owners q = []
  passed : ∀ d, Step (scheduler u) c d →
    ∃ ws, Waiters c.state q ws ∧ Passed c.running c.state d.state q ws
  locked : ∀ tmo entry r, c.call c.running = some ⟨.bermudaEventWait q tmo,entry,.ret r⟩ →
    r = 0 ∧ c.state.owners q = [c.running] ∨
      r = -1 ∧ (c.running ∈ c.state.owners q → c.running ∈ entry.owners q)
  unlocked : ∀ entry r, c.call c.running = some ⟨.bermudaEventSignal q,entry,.ret r⟩ →
    c.running ∉ c.state.owners q

/-- Whatever threads wait for it, give it back or time out: a lock is exclusive. -/
theorem lock_exclusive (gentle : Gentle u) (locked : u.lock q)
    (reach : Reachable (scheduler u) (booted u) c) : Exclusive u q c := by
  have good := kernel_good gentle reach
  obtain ⟨L,R,here⟩ := good_inv (kernel_verified gentle) good
  obtain ⟨word,single⟩ := here.core.locks q locked
  refine ⟨single,word,fun d step => ?_,fun tmo entry r busy => ?_,fun entry r busy => ?_⟩
  · rcases good_step good step with same | irq | ⟨_,_,L,M,R,Q,stepped⟩
    · exact ⟨_,here.waiters q,.keep (by rw [same])⟩
    · have calm := (irq_at here irq).2
      exact ⟨_,here.waiters q,.keep (congrFun calm.owners q)⟩
    · exact ⟨_,stepped.before.waiters q,stepped.passed locked⟩
  · exact (good.busy _ busy).2.2 locked
  · exact (good.busy _ busy).2.2 locked

/-- One lock, and no interrupts that signal event queues. -/
def lockUsage : Usage where
  idle := 0x100
  lock q := q = 0x40
  raised _ _ := False
  notifies t k := (k.thread t).state = .waiting
  apart _ _ := False.elim

instance : DecidablePred lockUsage.lock := fun q => inferInstanceAs (Decidable (q = 0x40))

instance {q : Addr} {k : Kernel} : Decidable (lockUsage.raised q k) := isFalse id

instance {t : Addr} {k : Kernel} : Decidable (lockUsage.notifies t k) :=
  inferInstanceAs (Decidable (_ = _))

/-- Thread A takes the lock and sleeps; MAIN waits for it, and is passed it by A. When A
sleeps again, MAIN is about to return. -/
def lockConfig : Config Kernel Addr Op Int :=
  perform lockUsage [.call (.bermudaThreadCreate 0x200 ['M','A','I','N'] 150) 40,
    .call (.bermudaThreadCreate 0x300 ['A'] 100) 40,.call .bermudaThreadYield 80,
    .call (.bermudaEventWait 0x40 0) 100,.call (.bermudaThreadSleep 1) 100,
    .call (.bermudaEventWait 0x40 0) 100,.tick,.call .bermudaThreadYield 200,
    .call (.bermudaEventSignal 0x40) 100,.call (.bermudaThreadSleep 1) 27] (bootConfig lockUsage [0x40] 0x500)

theorem lock_exclusive_passed : Exclusive lockUsage 0x40 lockConfig ∧
    returning lockConfig = some (.bermudaEventWait 0x40 0,0) ∧
    lockConfig.state.owners 0x40 = [lockConfig.running] := by
  have gentle : Gentle lockUsage := by
    rintro t k (waits : (k.thread t).state = .waiting)
    simp [waits]
  have start : booted lockUsage (bootConfig lockUsage [0x40] 0x500) :=
    bootConfig_booted (by decide) fun q => by simp [lockUsage]
  have reach : Reachable (scheduler lockUsage) (booted lockUsage) lockConfig :=
    perform_reachable (.init start) (by decide +kernel)
  exact ⟨lock_exclusive gentle rfl reach,by decide +kernel,by decide +kernel⟩

end BermudaOS.Sys.Sched
