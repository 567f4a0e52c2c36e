import BermudaOS.Sys.SchedTimers

/-! Who changes what, by the call in progress: a thread waits in the queue that its call
names, and a lock is taken and given only by calls that name it. -/
namespace BermudaOS.Sys.Sched
open VirtTimer Lib.Chains Lib.Program

variable {u : Usage} {k : Kernel} {t q : Addr} {c d : Config Kernel Addr Op Int}

/-- The call in progress of `t`. -/
def Calling (c : Config Kernel Addr Op Int) (t : Addr) (op : Op) : Prop :=
  ∃ k, c.call t = some k ∧ k.op = op

/-- What one step does to the owner of a lock, and in which call. -/
inductive Ownership (c d : Config Kernel Addr Op Int) (q : Addr) : Prop
  | keep (same : d.state.owners q = c.state.owners q)
  | take {op : Op} (calling : Calling c c.running op) (about : op.waits = some q)
      (free : c.state.owners q = []) (taken : d.state.owners q = [c.running])
  | release {op : Op} (calling : Calling c c.running op) (about : op.signals = some q)
      (held : c.state.owners q = [c.running]) (free : d.state.owners q = [])
  | handOver {op : Op} {t : Addr} (calling : Calling c c.running op) (about : op.signals = some q)
      (waits : ∃ ws, Waiters c.state q ws ∧ t ∈ ws) (held : c.state.owners q = [c.running])
      (passed : d.state.owners q = [t])

theorem step_ownership (gentle : Gentle u) (locked : u.lock q)
    (reach : Reachable (scheduler u) (booted u) c) (step : Step (scheduler u) c d) : Ownership c d q := by
  have good := kernel_good gentle reach
  obtain ⟨L,R,here⟩ := good_inv (kernel_verified gentle) good
  rcases good_step good step with same | irq | ⟨k,busy,L,M,R,Q,stepped⟩
  · exact .keep (by rw [same])
  · exact .keep (congrFun (irq_at here irq).2.owners q)
  · have before : c.state.owners q = R.owners q := congrFun stepped.before.owners q
    have after : d.state.owners q = Q.owners q := congrFun stepped.after.owners q
    have within := stepped.within
    have calling : Calling c c.running k.op := ⟨k,busy,rfl⟩
    have gives (held : c.state.owners q ≠ []) (changed : d.state.owners q ≠ c.state.owners q) :
        k.op.signals = some q := by
      rw [before] at held
      rw [before,after] at changed
      exact within.gives q locked held changed
    cases stepped.passed locked with
    | keep same => exact .keep same
    | take free taken =>
      refine .take calling (within.takes q locked (before ▸ free) ?_) free taken
      rw [← after,taken]
      simp
    | release alone held free =>
      refine .release calling (gives ?_ ?_) held free
      · simp [held]
      · simp [held,free]
    | handOver t us waits held passed =>
      have waiters := stepped.before.waiters q
      rw [waits] at waiters
      by_cases same : t = c.running
      · exact .keep (by rw [passed,held,same])
      · refine .handOver calling (gives ?_ ?_) ⟨_,waiters,by simp⟩ held passed
        · simp [held]
        · simpa [held,passed] using same

/-- Another thread becomes an owner only as it waits for the lock, and stops being one
only by itself. -/
theorem Ownership.other (ownership : Ownership c d q) (other : t ≠ c.running) :
    (t ∈ d.state.owners q ↔ t ∈ c.state.owners q) ∨
      t ∈ d.state.owners q ∧ ∃ ws, Waiters c.state q ws ∧ t ∈ ws := by
  cases ownership with
  | keep same => exact .inl (by rw [same])
  | take _ _ free taken => exact .inl (by simp [free,taken,other])
  | release _ _ held free => exact .inl (by simp [free,held,other])
  | @handOver _ s _ _ waits held passed =>
    by_cases same : t = s
    · subst same
      exact .inr ⟨by simp [passed],waits⟩
    · exact .inl (by simp [passed,held,same,other])

theorem Ownership.gained (ownership : Ownership c d q)
    (quiet : ∀ op, Calling c c.running op → op.waits ≠ some q)
    (now : c.running ∈ d.state.owners q) : c.running ∈ c.state.owners q := by
  cases ownership with
  | keep same => rwa [same] at now
  | take calling about => exact absurd about (quiet _ calling)
  | release _ _ held => simp [held]
  | handOver _ _ _ held => simp [held]

theorem Ownership.kept (ownership : Ownership c d q)
    (quiet : ∀ op, Calling c c.running op → op.signals ≠ some q)
    (own : c.running ∈ c.state.owners q) : c.running ∈ d.state.owners q := by
  cases ownership with
  | keep same => rwa [same]
  | take _ _ _ taken => simp [taken]
  | release calling about => exact absurd about (quiet _ calling)
  | handOver calling about => exact absurd about (quiet _ calling)

theorem Client.not_linked {i : Addr} {L : Lists} {R : Rest} (client : Client u i L R k) {ws : List Addr}
    (waiters : Waiters k q ws) : i ∉ ws := by
  rw [Queued.unique waiters (client.here.waiters q)]
  exact client.here.core.not_waiting client.ready q

theorem waiter_calling (gentle : Gentle u) (reach : Reachable (scheduler u) (booted u) c) {ws : List Addr}
    (waiters : Waiters c.state q ws) (inside : t ∈ ws) : ∃ op, Calling c t op ∧ op.waits = some q := by
  induction reach generalizing ws t with
  | init start =>
    have boot := start.1
    obtain rfl : ws = [] := by
      rcases waiters with ⟨_,empty⟩ | ⟨busy,chain⟩
      · exact empty
      · rw [(boot.events q).resolve_right busy] at chain
        exact chain_unique chain rfl
    cases inside
  | @step c d reach step ih =>
    have good := kernel_good gentle reach
    obtain ⟨vs,us,before,after,turnover⟩ := step_turnover gentle reach step q
    obtain rfl := Queued.unique waiters after
    -- a thread that joins does so in its call, and one that was there before stays in it
    have joins : t ∈ vs ∨ t = c.running ∧ ∃ k, c.call c.running = some k ∧ k.op.waits = some q := by
      by_cases member : t ∈ vs
      · exact .inl member
      · obtain ⟨L,R,here⟩ := good_inv (kernel_verified gentle) good
        rcases good_step good step with same | irq | ⟨k,busy,L,M,R,Q,stepped⟩
        · rw [same] at waiters
          exact .inl (Queued.unique before waiters ▸ inside)
        · exact .inl (Queued.unique before (here.waiters q) ▸
            Queued.unique waiters ((irq_at here irq).1.waiters q) ▸ inside)
        · have other : t = c.running := by
            by_contra other
            exact turnover.stays (Ne.symm other) member inside
          subst other
          refine .inr ⟨rfl,k,busy,stepped.within.joins q ?_ ?_⟩
          · rwa [Queued.unique (stepped.before.waiters q) before]
          · rwa [Queued.unique (stepped.after.waiters q) waiters]
    have stays (same : d.call t = c.call t) (member : t ∈ vs) : ∃ op, Calling d t op ∧ op.waits = some q := by
      obtain ⟨op,⟨k,busy,about⟩,waits⟩ := ih before member
      exact ⟨op,⟨k,same.trans busy,about⟩,waits⟩
    have goes {op : Op} {entry : Kernel} {rest onward : Code Int}
        (busy : c.call c.running = some ⟨op,entry,rest⟩)
        (calls : d.call = Function.update c.call c.running (some ⟨op,entry,onward⟩)) :
        ∃ op, Calling d t op ∧ op.waits = some q := by
      by_cases same : t = c.running
      · subst same
        refine ⟨op,⟨_,(congrFun calls _).trans (Function.update_self _ _ _),rfl⟩,?_⟩
        rcases joins with member | ⟨_,k,calling,about⟩
        · obtain ⟨_,⟨k,calling,rfl⟩,waits⟩ := ih before member
          obtain rfl := Option.some.inj (busy.symm.trans calling)
          exact waits
        · obtain rfl := Option.some.inj (busy.symm.trans calling)
          exact about
      · exact stays ((congrFun calls t).trans (Function.update_of_ne same _ _))
          (joins.resolve_right fun both => same both.1)
    cases step with
    | interrupt irq =>
      rcases joins with member | ⟨rfl,k,busy,about⟩
      · exact stays rfl member
      · exact ⟨_,⟨k,busy,rfl⟩,about⟩
    | @call op idle allowed =>
      obtain ⟨L,R,client⟩ := good.idle idle
      have other : t ≠ c.running := by
        rintro rfl
        exact client.not_linked waiters inside
      exact stays (Function.update_of_ne other _ _) (joins.resolve_right fun both => other both.1)
    | act busy => exact goes busy rfl
    | switch busy => exact goes busy rfl
    | @ret op entry result busy =>
      obtain ⟨L,R,client⟩ := (good.busy _ busy).1
      have other : t ≠ c.running := by
        rintro rfl
        exact client.not_linked waiters inside
      exact stays (Function.update_of_ne other _ _) (joins.resolve_right fun both => other both.1)

end BermudaOS.Sys.Sched
