import Mathlib.Logic.Function.Basic
import Mathlib.Logic.Relation

/-! Threads that share one processor and give it up only themselves, while
interrupts cut in between any two of their atomic actions. A program is a tree
of atomic actions; a contract says what every state satisfies, what a thread may
count on while it runs and when it gets the processor back, and what its calls
leave behind. A call is verified alone; runs of all threads then keep the contract. -/
namespace BermudaOS.Lib.Program

/-- Code cut into its atomic actions. What follows an action may depend on the
state it found. `fault` is a null dereference or a walk that never ends, `exit`
ends the whole run. -/
inductive Prog (σ α : Type) : Type
  | ret (a : α)
  | fault
  | exit
  | step (update : σ → σ) (next : σ → Prog σ α)
  | switch (next : Prog σ α)

namespace Prog

variable {σ α β : Type}

def bind : Prog σ α → (α → Prog σ β) → Prog σ β
  | ret a,f => f a
  | fault,_ => fault
  | exit,_ => exit
  | step update next,f => step update fun s => (next s).bind f
  | switch next,f => switch (next.bind f)

instance : Monad (Prog σ) where
  pure := ret
  bind := bind

theorem bind_assoc (p : Prog σ α) {γ : Type} (f : α → Prog σ β) (g : β → Prog σ γ) :
    p >>= f >>= g = p >>= fun a => f a >>= g := by
  change (p.bind f).bind g = p.bind fun a => (f a).bind g
  induction p with
  | ret a => rfl
  | fault => rfl
  | exit => rfl
  | step update next ih => exact congrArg (step update) (funext ih)
  | switch next ih => exact congrArg switch ih

/-- One atomic action and what it reads. -/
def access (update : σ → σ) (read : σ → α) : Prog σ α := step update fun s => ret (read s)

def act (update : σ → σ) : Prog σ Unit := access update fun _ => ()

def get (read : σ → α) : Prog σ α := access id read

def yieldCpu : Prog σ Unit := switch (ret ())

/-- The program run alone, without interrupts, up to its result. -/
def run : Prog σ α → σ → Option (α × σ)
  | ret a,s => some (a,s)
  | step update next,s => (next s).run (update s)
  | _,_ => none

/-- The program run alone, up to its end or to where it gives up the processor. -/
def runOut (swap : σ → σ) : Prog σ α → σ → Option σ
  | ret _,s => some s
  | step update next,s => (next s).runOut swap (update s)
  | switch _,s => some (swap s)
  | _,_ => none

theorem runOut_bind {p : Prog σ α} {f : α → Prog σ β} {swap : σ → σ} {s t : σ} {a : α}
    (runs : p.run s = some (a,t)) : (p >>= f).runOut swap s = (f a).runOut swap t := by
  change (p.bind f).runOut swap s = _
  induction p generalizing s with
  | ret b =>
    obtain ⟨rfl,rfl⟩ := Prod.mk.inj (Option.some.inj runs)
    rfl
  | fault => cases runs
  | exit => cases runs
  | step update next ih => exact ih s runs
  | switch next => cases runs

@[simp] theorem run_pure (a : α) (s : σ) : (pure a : Prog σ α).run s = some (a,s) := rfl

@[simp] theorem run_access (update : σ → σ) (read : σ → α) (s : σ) :
    (access update read).run s = some (read s,update s) := rfl

@[simp] theorem run_get (read : σ → α) (s : σ) : (get read).run s = some (read s,s) := rfl

@[simp] theorem run_act (update : σ → σ) (s : σ) : (act update).run s = some ((),update s) := rfl

@[simp] theorem run_fault (s : σ) : (fault : Prog σ α).run s = none := rfl

@[simp] theorem run_bind (p : Prog σ α) (f : α → Prog σ β) (s : σ) :
    (p >>= f).run s = (p.run s).bind fun x => (f x.1).run x.2 := by
  change (p.bind f).run s = _
  induction p generalizing s with
  | ret a => rfl
  | fault => rfl
  | exit => rfl
  | step update next ih => exact ih s (update s)
  | switch next => rfl

/-- No action of the program changes what `f` reads. -/
def Keeps (f : σ → β) : Prog σ α → Prop
  | step update next => ∀ s, f (update s) = f s ∧ Keeps f (next s)
  | switch next => Keeps f next
  | _ => True

section Keeps

variable {γ : Type} {f : σ → γ} {p : Prog σ α}

theorem keeps_bind {q : α → Prog σ β} (keeps : Keeps f p) (rest : ∀ a, Keeps f (q a)) :
    Keeps f (p >>= q) := by
  change Keeps f (p.bind q)
  induction p with
  | ret a => exact rest a
  | fault => trivial
  | exit => trivial
  | step update next ih => exact fun s => ⟨(keeps s).1,ih s (keeps s).2⟩
  | switch next ih => exact ih keeps

theorem keeps_get (read : σ → α) : Keeps f (get read) := fun _ => ⟨rfl,trivial⟩

theorem keeps_access {update : σ → σ} {read : σ → α} (same : ∀ s, f (update s) = f s) :
    Keeps f (access update read) := fun s => ⟨same s,trivial⟩

theorem keeps_act {update : σ → σ} (same : ∀ s, f (update s) = f s) : Keeps f (act update) :=
  keeps_access same

theorem keeps_run {s t : σ} {a : α} (keeps : Keeps f p) (runs : p.run s = some (a,t)) : f t = f s := by
  induction p generalizing s with
  | ret b =>
    obtain ⟨_,rfl⟩ := Prod.mk.inj (Option.some.inj runs)
    rfl
  | fault => cases runs
  | exit => cases runs
  | step update next ih => exact (ih s (keeps s).2 runs).trans (keeps s).1
  | switch next => cases runs

end Keeps

end Prog

/-- The threads, the interrupts, the calls threads may make, and the switch. -/
structure System (σ ι τ ρ : Type) where
  interrupt : σ → σ → Prop
  allowed : ι → τ → σ → Prop
  body : τ → Prog σ ρ
  target : σ → ι
  swap : σ → σ

/-- A call in progress, with the state it was made in. -/
structure Call (σ τ ρ : Type) where
  op : τ
  entry : σ
  rest : Prog σ ρ

structure Config (σ ι τ ρ : Type) where
  state : σ
  running : ι
  call : ι → Option (Call σ τ ρ)

/-- What is kept by the threads of a system. `step` is what an action of a call may do,
`own` what only a thread itself changes, and `halts` whether a program may end the run. -/
structure Contract (σ ι τ ρ π : Type) where
  inv : σ → Prop
  halts : Prop
  step : τ → ι → σ → σ → Prop
  own : ι → σ → π
  client : ι → σ → Prop
  resumed : ι → σ → Prop
  done : ι → τ → σ → ρ → σ → Prop

variable {σ ι τ ρ π α β : Type}

/-- The call that is about to return, and its result. -/
def returning (c : Config σ ι τ ρ) : Option (τ × ρ) :=
  match c.call c.running with
  | some ⟨op,_,.ret r⟩ => some (op,r)
  | _ => none

theorem returning_call {op : τ} {r : ρ} (returns : returning c = some (op,r)) :
    ∃ entry, c.call c.running = some ⟨op,entry,.ret r⟩ := by
  unfold returning at returns
  split at returns
  · next entry _ busy =>
    obtain ⟨rfl,rfl⟩ := Prod.mk.inj (Option.some.inj returns)
    exact ⟨entry,busy⟩
  · cases returns

section Config

variable [DecidableEq ι]

/-- Interrupts, calls and the atomic actions of the running thread, in any order. -/
inductive Step (S : System σ ι τ ρ) : Config σ ι τ ρ → Config σ ι τ ρ → Prop
  | interrupt {c : Config σ ι τ ρ} {s : σ} (irq : S.interrupt c.state s) :
      Step S c {c with state := s}
  | call {c : Config σ ι τ ρ} {op : τ} (idle : c.call c.running = none)
      (allowed : S.allowed c.running op c.state) :
      Step S c {c with call := Function.update c.call c.running (some ⟨op,c.state,S.body op⟩)}
  | act {c : Config σ ι τ ρ} {op : τ} {entry : σ} {update : σ → σ} {next : σ → Prog σ ρ}
      (busy : c.call c.running = some ⟨op,entry,.step update next⟩) :
      Step S c {c with state := update c.state,
                       call := Function.update c.call c.running (some ⟨op,entry,next c.state⟩)}
  | switch {c : Config σ ι τ ρ} {op : τ} {entry : σ} {next : Prog σ ρ}
      (busy : c.call c.running = some ⟨op,entry,.switch next⟩) :
      Step S c {state := S.swap c.state,running := S.target c.state,
                call := Function.update c.call c.running (some ⟨op,entry,next⟩)}
  | ret {c : Config σ ι τ ρ} {op : τ} {entry : σ} {result : ρ}
      (busy : c.call c.running = some ⟨op,entry,.ret result⟩) :
      Step S c {c with call := Function.update c.call c.running none}

inductive Reachable (S : System σ ι τ ρ) (init : Config σ ι τ ρ → Prop) : Config σ ι τ ρ → Prop
  | init {c : Config σ ι τ ρ} (start : init c) : Reachable S init c
  | step {c d : Config σ ι τ ρ} (reach : Reachable S init c) (step : Step S c d) :
      Reachable S init d

variable {S : System σ ι τ ρ} {init : Config σ ι τ ρ → Prop} {c : Config σ ι τ ρ}

/-- The running thread makes a call. -/
def invoke (S : System σ ι τ ρ) (op : τ) (c : Config σ ι τ ρ) : Config σ ι τ ρ :=
  {c with call := Function.update c.call c.running (some ⟨op,c.state,S.body op⟩)}

/-- The running thread goes on with its call. -/
def advance (S : System σ ι τ ρ) (c : Config σ ι τ ρ) : Config σ ι τ ρ :=
  match c.call c.running with
  | some ⟨op,entry,.step update next⟩ =>
    {c with state := update c.state,
            call := Function.update c.call c.running (some ⟨op,entry,next c.state⟩)}
  | some ⟨op,entry,.switch next⟩ =>
    {state := S.swap c.state,running := S.target c.state,
     call := Function.update c.call c.running (some ⟨op,entry,next⟩)}
  | some ⟨_,_,.ret _⟩ => {c with call := Function.update c.call c.running none}
  | _ => c

def advances (S : System σ ι τ ρ) : Nat → Config σ ι τ ρ → Config σ ι τ ρ
  | 0,c => c
  | n+1,c => advances S n (advance S c)

theorem reachable_advance (reach : Reachable S init c) : Reachable S init (advance S c) := by
  unfold advance
  split
  · next busy => exact .step reach (.act busy)
  · next busy => exact .step reach (.switch busy)
  · next busy => exact .step reach (.ret busy)
  · exact reach

theorem reachable_advances (n : Nat) (reach : Reachable S init c) :
    Reachable S init (advances S n c) := by
  induction n generalizing c with
  | zero => exact reach
  | succ n ih => exact ih (reachable_advance reach)

end Config

/-- The weakest precondition of a program run by one thread of the system. -/
def Meets (S : System σ ι τ ρ) (C : Contract σ ι τ ρ π) (op : τ) (me : ι) :
    Prog σ α → (α → σ → Prop) → σ → Prop
  | .ret a,post,s => post a s
  | .fault,_,_ => False
  | .exit,_,s => C.inv s ∧ C.halts
  | .step update next,post,s => C.inv s ∧ ∀ t, Relation.ReflTransGen S.interrupt s t →
      C.step op me t (update t) ∧ Meets S C op me (next t) post (update t)
  | .switch next,post,s => C.inv s ∧ ∀ t, Relation.ReflTransGen S.interrupt s t →
      C.step op me t (S.swap t) ∧ C.resumed (S.target t) (S.swap t) ∧
        ∀ u, C.resumed me u → C.own me u = C.own me (S.swap t) → Meets S C op me next post u

section Rules

variable {S : System σ ι τ ρ} {C : Contract σ ι τ ρ π} {op : τ} {me : ι}

theorem meets_mono {p : Prog σ α} {post other : α → σ → Prop} {s : σ}
    (meets : Meets S C op me p post s) (weaker : ∀ a t, post a t → other a t) :
    Meets S C op me p other s := by
  induction p generalizing s with
  | ret a => exact weaker a s meets
  | fault => exact meets
  | exit => exact meets
  | step update next ih =>
    exact ⟨meets.1,fun t irq => ⟨(meets.2 t irq).1,ih t (meets.2 t irq).2⟩⟩
  | switch next ih =>
    refine ⟨meets.1,fun t irq => ?_⟩
    obtain ⟨step,resumed,rest⟩ := meets.2 t irq
    exact ⟨step,resumed,fun u back same => ih (rest u back same)⟩

theorem meets_bind {p : Prog σ α} {f : α → Prog σ β} {post : β → σ → Prop} {s : σ}
    (meets : Meets S C op me p (fun a t => Meets S C op me (f a) post t) s) :
    Meets S C op me (p >>= f) post s := by
  change Meets S C op me (p.bind f) post s
  induction p generalizing s with
  | ret a => exact meets
  | fault => exact meets
  | exit => exact meets
  | step update next ih =>
    exact ⟨meets.1,fun t irq => ⟨(meets.2 t irq).1,ih t (meets.2 t irq).2⟩⟩
  | switch next ih =>
    refine ⟨meets.1,fun t irq => ?_⟩
    obtain ⟨step,resumed,rest⟩ := meets.2 t irq
    exact ⟨step,resumed,fun u back same => ih (rest u back same)⟩

theorem meets_pure {a : α} {post : α → σ → Prop} {s : σ} (holds : post a s) :
    Meets S C op me (pure a) post s := holds

/-- One action: the point before it is a state of the run, and what it needs is
kept by the interrupts that come first. -/
theorem meets_access {update : σ → σ} {read : σ → α} {post : α → σ → Prop} {s : σ}
    (inv : C.inv s) (then_ : ∀ t, Relation.ReflTransGen S.interrupt s t →
      C.step op me t (update t) ∧ post (read t) (update t)) :
    Meets S C op me (.access update read) post s := ⟨inv,then_⟩

/-- A program that neither gives up the processor nor ends the run has a result. -/
theorem meets_run (stays : ∀ i s, ¬C.resumed i s) (goes : ¬C.halts) {p : Prog σ α}
    {post : α → σ → Prop} {s : σ} (meets : Meets S C op me p post s) :
    ∃ a t, p.run s = some (a,t) ∧ post a t := by
  induction p generalizing s with
  | ret a => exact ⟨a,s,rfl,meets⟩
  | fault => exact meets.elim
  | exit => exact absurd meets.2 goes
  | step update next ih => exact ih s (meets.2 s .refl).2
  | switch next => exact absurd (meets.2 s .refl).2.1 (stays _ _)

end Rules

/-- What has to be shown of a system: interrupts keep every assertion, no thread
changes what another one owns, and every call that may be made meets its contract. -/
structure Verified (S : System σ ι τ ρ) (C : Contract σ ι τ ρ π) : Prop where
  invIrq : ∀ s t, C.inv s → S.interrupt s t → C.inv t
  ownIrq : ∀ i s t, S.interrupt s t → C.own i t = C.own i s
  ownStep : ∀ i j op s t, C.step op j s t → i ≠ j → C.own i t = C.own i s
  clientIrq : ∀ i s t, C.client i s → S.interrupt s t → C.client i t
  doneIrq : ∀ i op entry r s t, C.done i op entry r s → S.interrupt s t → C.done i op entry r t
  clientInv : ∀ i s, C.client i s → C.inv s
  doneClient : ∀ i op entry r s, C.done i op entry r s → C.client i s
  calls : ∀ i op s, C.client i s → S.allowed i op s → Meets S C op i (S.body op) (C.done i op s) s

section Runs

variable {S : System σ ι τ ρ} {C : Contract σ ι τ ρ π}

theorem meets_irq (verified : Verified S C) {i : ι} {op : τ} {entry : σ} {p : Prog σ ρ} {s t : σ}
    (meets : Meets S C op i p (C.done i op entry) s) (irq : S.interrupt s t) :
    Meets S C op i p (C.done i op entry) t := by
  cases p with
  | ret r => exact verified.doneIrq i op entry r s t meets irq
  | fault => exact meets
  | exit => exact ⟨verified.invIrq s t meets.1 irq,meets.2⟩
  | step update next => exact ⟨verified.invIrq s t meets.1 irq,fun u more => meets.2 u (.head irq more)⟩
  | switch next => exact ⟨verified.invIrq s t meets.1 irq,fun u more => meets.2 u (.head irq more)⟩

theorem meets_inv (verified : Verified S C) {i : ι} {op : τ} {entry : σ} {p : Prog σ ρ} {s : σ}
    (meets : Meets S C op i p (C.done i op entry) s) : C.inv s := by
  cases p with
  | ret r => exact verified.clientInv i s (verified.doneClient i op entry r s meets)
  | fault => exact meets.elim
  | exit => exact meets.1
  | step update next => exact meets.1
  | switch next => exact meets.1

/-- The running thread is in client code or in a call that meets its contract, and
every other thread is so as soon as it gets the processor back. -/
structure Good (S : System σ ι τ ρ) (C : Contract σ ι τ ρ π) (c : Config σ ι τ ρ) : Prop where
  idle : c.call c.running = none → C.client c.running c.state
  busy : ∀ k, c.call c.running = some k → Meets S C k.op c.running k.rest (C.done c.running k.op k.entry) c.state
  parked : ∀ i k, i ≠ c.running → c.call i = some k → ∀ u, C.resumed i u →
    C.own i u = C.own i c.state → Meets S C k.op i k.rest (C.done i k.op k.entry) u
  fresh : ∀ i, i ≠ c.running → c.call i = none → ∀ u, C.resumed i u →
    C.own i u = C.own i c.state → C.client i u

theorem good_inv (verified : Verified S C) {c : Config σ ι τ ρ} (good : Good S C c) :
    C.inv c.state := by
  cases running : c.call c.running with
  | none => exact verified.clientInv _ _ (good.idle running)
  | some k => exact meets_inv verified (good.busy k running)

theorem good_others {c d : Config σ ι τ ρ} (good : Good S C c) (running : d.running = c.running)
    (calls : ∀ i, i ≠ c.running → d.call i = c.call i)
    (owns : ∀ i, i ≠ c.running → C.own i d.state = C.own i c.state)
    (idle : d.call d.running = none → C.client d.running d.state)
    (busy : ∀ k, d.call d.running = some k →
      Meets S C k.op d.running k.rest (C.done d.running k.op k.entry) d.state) : Good S C d := by
  refine ⟨idle,busy,?_,?_⟩
  · intro i k other parked u resumed same
    rw [running] at other
    exact good.parked i k other (calls i other ▸ parked) u resumed (same.trans (owns i other))
  · intro i other unused u resumed same
    rw [running] at other
    exact good.fresh i other (calls i other ▸ unused) u resumed (same.trans (owns i other))

variable [DecidableEq ι]

theorem switch_good (verified : Verified S C) {c : Config σ ι τ ρ} (good : Good S C c) {op : τ}
    {entry : σ} {next : Prog σ ρ} (busy : c.call c.running = some ⟨op,entry,.switch next⟩) :
    Good S C {state := S.swap c.state,running := S.target c.state,
              call := Function.update c.call c.running (some ⟨op,entry,next⟩)} := by
  obtain ⟨step,resumed,back⟩ := (good.busy _ busy).2 _ .refl
  have owns (i : ι) (other : i ≠ c.running) : C.own i (S.swap c.state) = C.own i c.state :=
    verified.ownStep i c.running _ _ _ step other
  refine ⟨?_,?_,?_,?_⟩
  · intro calling
    dsimp only at calling ⊢
    by_cases same : S.target c.state = c.running
    · simp [same] at calling
    · rw [Function.update_of_ne same] at calling
      exact good.fresh _ same calling _ resumed (owns _ same)
  · intro k calling
    dsimp only at calling ⊢
    by_cases same : S.target c.state = c.running
    · rw [same,Function.update_self,Option.some.injEq] at calling
      subst calling
      rw [same] at resumed ⊢
      exact back _ resumed rfl
    · rw [Function.update_of_ne same] at calling
      exact good.parked _ k same calling _ resumed (owns _ same)
  · intro i k _ calling u again own
    dsimp only at calling own
    by_cases same : i = c.running
    · subst same
      rw [Function.update_self,Option.some.injEq] at calling
      subst calling
      exact back u again own
    · rw [Function.update_of_ne same] at calling
      exact good.parked i k same calling u again (own.trans (owns i same))
  · intro i _ calling u again own
    dsimp only at calling own
    have other : i ≠ c.running := by
      rintro rfl
      simp at calling
    rw [Function.update_of_ne other] at calling
    exact good.fresh i other calling u again (own.trans (owns i other))

theorem step_good (verified : Verified S C) {c d : Config σ ι τ ρ} (good : Good S C c)
    (step : Step S c d) : Good S C d := by
  cases step with
  | interrupt irq =>
    exact good_others good rfl (fun _ _ => rfl) (fun i _ => verified.ownIrq i _ _ irq)
      (fun idle => verified.clientIrq _ _ _ (good.idle idle) irq)
      fun k busy => meets_irq verified (good.busy k busy) irq
  | @call op idle allowed =>
    refine good_others good rfl (fun _ other => Function.update_of_ne other _ _) (fun _ _ => rfl)
      (by simp) fun k busy => ?_
    simp only [Function.update_self,Option.some.injEq] at busy
    subst busy
    exact verified.calls _ op _ (good.idle idle) allowed
  | @act op entry update next busy =>
    obtain ⟨step,meets⟩ := (good.busy _ busy).2 _ .refl
    refine good_others good rfl (fun _ other => Function.update_of_ne other _ _)
      (fun i other => verified.ownStep i c.running _ _ _ step other) (by simp) fun k calling => ?_
    simp only [Function.update_self,Option.some.injEq] at calling
    subst calling
    exact meets
  | switch busy => exact switch_good verified good busy
  | ret busy =>
    exact good_others good rfl (fun _ other => Function.update_of_ne other _ _) (fun _ _ => rfl)
      (fun _ => verified.doneClient _ _ _ _ _ (good.busy _ busy)) (by simp)

theorem reachable_good (verified : Verified S C) {init : Config σ ι τ ρ → Prop}
    (start : ∀ c, init c → Good S C c) {c : Config σ ι τ ρ} (reach : Reachable S init c) :
    Good S C c := by
  induction reach with
  | init initial => exact start _ initial
  | step _ step ih => exact step_good verified ih step

/-- In a run the state only changes by interrupts and by actions the contract allows. -/
theorem good_step {c d : Config σ ι τ ρ} (good : Good S C c) (step : Step S c d) :
    d.state = c.state ∨ S.interrupt c.state d.state ∨
      ∃ k, c.call c.running = some k ∧ C.step k.op c.running c.state d.state := by
  cases step with
  | interrupt irq => exact .inr (.inl irq)
  | call => exact .inl rfl
  | act busy => exact .inr (.inr ⟨_,busy,((good.busy _ busy).2 _ .refl).1⟩)
  | switch busy => exact .inr (.inr ⟨_,busy,((good.busy _ busy).2 _ .refl).1⟩)
  | ret => exact .inl rfl

end Runs

end BermudaOS.Lib.Program
