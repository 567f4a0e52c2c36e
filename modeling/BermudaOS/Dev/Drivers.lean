import BermudaOS.Lib.Clients
import BermudaOS.Sys.SchedOwners

/-! Device drivers on the scheduler: their interrupts, the states they start in, and
what a step of theirs does to the owner of a lock. -/
namespace BermudaOS.Dev
open Sys.VirtTimer Sys.Sched Lib.Program Lib.Clients

variable {δ κ ν : Type} {u : Usage}

/-- The interrupts of the kernel, and what the devices do by themselves. -/
inductive Interrupt (u : Usage) (device : Kernel × δ → Kernel × δ → Prop) : Kernel × δ → Kernel × δ → Prop
  | kernel {k l : Kernel} {d : δ} (irq : Irq u k l) : Interrupt u device (k,d) (l,d)
  | device {k l : Kernel} {d e : δ} (cut : device (k,d) (l,e)) (below : l = k ∨ Irq u k l) :
      Interrupt u device (k,d) (l,e)

/-- The kernel has started, and no driver is called yet. -/
structure Started (u : Usage) (ready : δ → Prop) (m : Machine Kernel Addr Op Int δ κ ν) : Prop where
  boot : booted u m.kernel
  dev : ready m.dev
  jobs : ∀ i, m.job i = none

/-- A call that has nothing to do with the queue. -/
def Aside (q : Addr) (op : Op) : Prop := op.waits ≠ some q ∧ op.signals ≠ some q

instance {q : Addr} : DecidablePred (Aside q) := fun _ => inferInstanceAs (Decidable (_ ∧ _))

/-- The interrupts of the kernel, for scripts. -/
inductive Cut
  | event (q : Addr)
  | tick
  | heap (a : Addr)

def Cut.happen (u : Usage) [∀ q k, Decidable (u.raised q k)] : Cut → Kernel × δ → Option (Kernel × δ)
  | .event q,s => if u.raised q s.1 then some (bermudaEventSignalFromISR q s.1,s.2) else none
  | .tick,s => some ({s.1 with bermudaSystemTick := (s.1.bermudaSystemTick + 1) % 2^32},s.2)
  | .heap a,s => some ({s.1 with heapNext := a},s.2)

instance [DecidablePred u.lock] [∀ q k, Decidable (u.raised q k)] [∀ t k, Decidable (u.notifies t k)]
    {i : Addr} {op : Op} {k : Kernel} : Decidable ((scheduler u).allowed i op k) :=
  inferInstanceAs (Decidable (allowed u i op k))

variable {device : Kernel × δ → Kernel × δ → Prop} {ready : δ → Prop} {i q : Addr}
  {D : Drivers Kernel Addr Op Int δ κ ν} {m n : Machine Kernel Addr Op Int δ κ ν}
  {may : Machine Kernel Addr Op Int δ κ ν → Machine Kernel Addr Op Int δ κ ν → Prop}

theorem Interrupt.below {s t : Kernel × δ} (interrupt : Interrupt u device s t) :
    t.1 = s.1 ∨ Irq u s.1 t.1 := by
  cases interrupt with
  | kernel irq => exact .inr irq
  | device _ below => exact below

theorem Cut.interrupt [∀ q k, Decidable (u.raised q k)] (cut : Cut) (s t : Kernel × δ)
    (happens : cut.happen u s = some t) : Interrupt u device s t := by
  unfold happen at happens
  split at happens
  · split at happens
    · next raised =>
      obtain rfl := Option.some.inj happens
      exact .kernel (.event _ raised)
    · cases happens
  · obtain rfl := Option.some.inj happens
    exact .kernel .tick
  · obtain rfl := Option.some.inj happens
    exact .kernel (.heap _)

/-- The invariant rule for drivers on the scheduler. -/
theorem drivers_keep {P : Machine Kernel Addr Op Int δ κ ν → Prop}
    (irq : ∀ s t, D.interrupt s t → t.1 = s.1 ∨ Irq u s.1 t.1)
    (start : ∀ m, Started u ready m → P m)
    (asks : ∀ m op, Reachable (scheduler u) (booted u) m.kernel → P m → m.Asks op →
      allowed u m.running op m.kernel.state)
    (keeps : ∀ m n, Reachable (scheduler u) (booted u) m.kernel →
      Reachable (scheduler u) (booted u) n.kernel → Matching D m → P m →
      Lib.Clients.Step (scheduler u) D m n → may m n → P n)
    (run : Runs (scheduler u) D may (Started u ready) m) :
    Reachable (scheduler u) (booted u) m.kernel ∧ Matching D m ∧ P m := by
  refine runs_keep (P := fun m => Matching D m ∧ P m) irq ?_ ?_ ?_ run
  · intro m start'
    refine ⟨start'.boot,⟨fun i b j call => ?_,fun i b call => ?_⟩,start m start'⟩
    · cases (start'.boot.2.2 i).symm.trans call
    · cases (start'.boot.2.2 i).symm.trans call
  · exact fun m op reach holds ask => asks m op reach holds.2 ask
  · intro m n reach onward holds step admitted
    exact ⟨step_matching holds.1 step,keeps m n reach onward holds.1 holds.2 step admitted⟩

section Locks

theorem irq_owners {k l : Kernel} (irq : Irq u k l) : l.owners = k.owners := by
  cases irq with
  | event q raised => exact congrArg Rest.owners (event_calm raised).2
  | tick => rfl
  | heap a => rfl

theorem driver_ownership (gentle : Gentle u) (locked : u.lock q)
    (irq : ∀ s t, D.interrupt s t → t.1 = s.1 ∨ Irq u s.1 t.1)
    (asks : ∀ op, m.Asks op → allowed u m.running op m.kernel.state)
    (reach : Reachable (scheduler u) (booted u) m.kernel) (step : Lib.Clients.Step (scheduler u) D m n) :
    Ownership m.kernel n.kernel q := by
  rcases step_below irq asks step with same | below
  · exact .keep (by rw [same])
  · exact step_ownership gentle locked reach below

theorem owner_other (gentle : Gentle u) (aside : ∀ op, D.free op → Aside q op)
    (reach : Reachable (scheduler u) (booted u) m.kernel) (matching : Matching D m)
    (ownership : Ownership m.kernel n.kernel q) (other : i ≠ m.running) :
    (i ∈ n.kernel.state.owners q ↔ i ∈ m.kernel.state.owners q) ∨
      ∃ b j next, m.kernel.call i = some b ∧ m.job i = some j ∧ j.rest = .call b.op next ∧
        b.op.waits = some q := by
  rcases ownership.other other with same | ⟨_,ws,waiters,inside⟩
  · exact .inl same
  · obtain ⟨_,⟨b,call,rfl⟩,waits⟩ := waiter_calling gentle reach waiters inside
    cases job : m.job i with
    | none => exact absurd waits (aside _ (matching.own i b call job)).1
    | some j =>
      obtain ⟨next,rest⟩ := matching.asked i b j call job
      exact .inr ⟨b,j,next,call,rfl,rest,waits⟩

end Locks

end BermudaOS.Dev
