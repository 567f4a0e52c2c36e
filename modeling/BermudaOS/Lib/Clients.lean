import BermudaOS.Lib.Program

/-! Drivers on top of a system of threads. The code of a driver acts on the state of the
devices and calls the system below, where alone a thread can lose the processor. Where
all these calls are allowed, a run of the drivers is a run of the system below. -/
namespace BermudaOS.Lib.Clients
open Program

/-- Code of a driver, cut at its accesses to the devices and its calls. `fault` is a
null dereference. -/
inductive Code (δ τ ρ ν : Type) : Type
  | ret (v : ν)
  | fault
  | act (update : δ → δ) (next : δ → Code δ τ ρ ν)
  | call (op : τ) (next : ρ → Code δ τ ρ ν)

namespace Code

variable {δ τ ρ ν μ : Type}

def bind : Code δ τ ρ ν → (ν → Code δ τ ρ μ) → Code δ τ ρ μ
  | ret v,f => f v
  | fault,_ => fault
  | act update next,f => act update fun d => (next d).bind f
  | call op next,f => call op fun r => (next r).bind f

instance : Monad (Code δ τ ρ) where
  pure := ret
  bind := bind

/-- One access to the devices. -/
def access (update : δ → δ) (read : δ → ν) : Code δ τ ρ ν := act update fun d => ret (read d)

def write (update : δ → δ) : Code δ τ ρ Unit := access update fun _ => ()

def read (f : δ → ν) : Code δ τ ρ ν := access id f

/-- A function that runs on the state of the devices without a call. -/
def exec (f : δ → δ × ν) : Code δ τ ρ ν := access (fun d => (f d).1) fun d => (f d).2

def ask (op : τ) : Code δ τ ρ ρ := call op ret

def result : Code δ τ ρ ν → Option ν
  | ret v => some v
  | _ => none

theorem result_some {c : Code δ τ ρ ν} {v : ν} (result : c.result = some v) : c = .ret v := by
  cases c with
  | ret w => exact congrArg Code.ret (Option.some.inj result)
  | _ => cases result

/-- Code for a part of the devices. -/
def on {ε : Type} (get : ε → δ) (set : δ → ε → ε) : Code δ τ ρ ν → Code ε τ ρ ν
  | ret v => ret v
  | fault => fault
  | act update next => act (fun d => set (update (get d)) d) fun d => (next (get d)).on get set
  | call op next => call op fun r => (next r).on get set

end Code

/-- A call of a driver, with the state of the devices when it was made and the number of
accesses and calls it has made. -/
structure Job (δ τ ρ κ ν : Type) where
  op : κ
  entry : δ
  pc : Nat
  rest : Code δ τ ρ ν

/-- The calls of the drivers, the interrupts, and the calls of the system below that
threads may make themselves. -/
structure Drivers (σ ι τ ρ δ κ ν : Type) where
  body : ι → κ → Code δ τ ρ ν
  begins : ι → κ → Prop
  interrupt : σ × δ → σ × δ → Prop
  free : τ → Prop

structure Machine (σ ι τ ρ δ κ ν : Type) where
  kernel : Config σ ι τ ρ
  dev : δ
  job : ι → Option (Job δ τ ρ κ ν)

variable {σ ι τ ρ δ κ ν : Type}

namespace Machine

abbrev running (m : Machine σ ι τ ρ δ κ ν) : ι := m.kernel.running

/-- The running thread is in code of its own or of a driver. -/
def Above (m : Machine σ ι τ ρ δ κ ν) : Prop := m.kernel.call m.running = none

/-- The running thread is about to make a call of a driver's code. -/
def Asks (m : Machine σ ι τ ρ δ κ ν) (op : τ) : Prop :=
  m.Above ∧ ∃ k entry pc next, m.job m.running = some ⟨k,entry,pc,.call op next⟩

def setJob [DecidableEq ι] (m : Machine σ ι τ ρ δ κ ν) (j : Option (Job δ τ ρ κ ν)) : Machine σ ι τ ρ δ κ ν :=
  {m with job := Function.update m.job m.running j}

theorem setJob_self [DecidableEq ι] (m : Machine σ ι τ ρ δ κ ν) (j : Option (Job δ τ ρ κ ν)) :
    (m.setJob j).job m.running = j := Function.update_self _ _ _

theorem setJob_other [DecidableEq ι] (m : Machine σ ι τ ρ δ κ ν) (j : Option (Job δ τ ρ κ ν)) {i : ι}
    (other : i ≠ m.running) : (m.setJob j).job i = m.job i := Function.update_of_ne other _ _

end Machine

section Steps

variable [DecidableEq ι]

inductive Step (S : System σ ι τ ρ) (D : Drivers σ ι τ ρ δ κ ν) :
    Machine σ ι τ ρ δ κ ν → Machine σ ι τ ρ δ κ ν → Prop
  | interrupt {m : Machine σ ι τ ρ δ κ ν} {s : σ} {d : δ}
      (irq : D.interrupt (m.kernel.state,m.dev) (s,d)) :
      Step S D m {m with kernel := {m.kernel with state := s},dev := d}
  | inside {m : Machine σ ι τ ρ δ κ ν} {k : Call σ τ ρ} (busy : m.kernel.call m.running = some k)
      (onward : returning m.kernel = none) : Step S D m {m with kernel := advance S m.kernel}
  | resume {m : Machine σ ι τ ρ δ κ ν} {k : κ} {entry : δ} {pc : Nat} {op : τ} {next : ρ → Code δ τ ρ ν}
      {below : τ} {r : ρ} (returns : returning m.kernel = some (below,r))
      (job : m.job m.running = some ⟨k,entry,pc,.call op next⟩) :
      Step S D m {m.setJob (some ⟨k,entry,pc + 1,next r⟩) with kernel := advance S m.kernel}
  | leave {m : Machine σ ι τ ρ δ κ ν} {below : τ} {r : ρ} (returns : returning m.kernel = some (below,r))
      (free : m.job m.running = none) : Step S D m {m with kernel := advance S m.kernel}
  | invoke {m : Machine σ ι τ ρ δ κ ν} {op : τ} (above : m.Above) (free : m.job m.running = none)
      (own : D.free op) (allowed : S.allowed m.running op m.kernel.state) :
      Step S D m {m with kernel := invoke S op m.kernel}
  | begin {m : Machine σ ι τ ρ δ κ ν} {k : κ} (above : m.Above) (free : m.job m.running = none)
      (begins : D.begins m.running k) : Step S D m (m.setJob (some ⟨k,m.dev,0,D.body m.running k⟩))
  | call {m : Machine σ ι τ ρ δ κ ν} {k : κ} {entry : δ} {pc : Nat} {op : τ} {next : ρ → Code δ τ ρ ν}
      (above : m.Above) (job : m.job m.running = some ⟨k,entry,pc,.call op next⟩) :
      Step S D m {m with kernel := invoke S op m.kernel}
  | act {m : Machine σ ι τ ρ δ κ ν} {k : κ} {entry : δ} {pc : Nat} {update : δ → δ} {next : δ → Code δ τ ρ ν}
      (above : m.Above) (job : m.job m.running = some ⟨k,entry,pc,.act update next⟩) :
      Step S D m {m.setJob (some ⟨k,entry,pc + 1,next m.dev⟩) with dev := update m.dev}
  | finish {m : Machine σ ι τ ρ δ κ ν} {k : κ} {entry : δ} {pc : Nat} {v : ν} (above : m.Above)
      (job : m.job m.running = some ⟨k,entry,pc,.ret v⟩) : Step S D m (m.setJob none)

/-- The runs all steps of which `may` admits. -/
inductive Runs (S : System σ ι τ ρ) (D : Drivers σ ι τ ρ δ κ ν)
    (may : Machine σ ι τ ρ δ κ ν → Machine σ ι τ ρ δ κ ν → Prop) (init : Machine σ ι τ ρ δ κ ν → Prop) :
    Machine σ ι τ ρ δ κ ν → Prop
  | init {m : Machine σ ι τ ρ δ κ ν} (start : init m) : Runs S D may init m
  | step {m n : Machine σ ι τ ρ δ κ ν} (run : Runs S D may init m) (step : Step S D m n)
      (admitted : may m n) : Runs S D may init n

variable {S : System σ ι τ ρ} {D : Drivers σ ι τ ρ δ κ ν} {m n : Machine σ ι τ ρ δ κ ν}
  {may : Machine σ ι τ ρ δ κ ν → Machine σ ι τ ρ δ κ ν → Prop} {init : Machine σ ι τ ρ δ κ ν → Prop}

theorem advance_step (c : Config σ ι τ ρ) : advance S c = c ∨ Program.Step S c (advance S c) := by
  unfold advance
  split
  · next busy => exact .inr (.act busy)
  · next busy => exact .inr (.switch busy)
  · next busy => exact .inr (.ret busy)
  · exact .inl rfl

theorem step_below (irq : ∀ s t, D.interrupt s t → t.1 = s.1 ∨ S.interrupt s.1 t.1)
    (asks : ∀ op, m.Asks op → S.allowed m.running op m.kernel.state) (step : Step S D m n) :
    n.kernel = m.kernel ∨ Program.Step S m.kernel n.kernel := by
  cases step with
  | interrupt cut =>
    rcases irq _ _ cut with same | below
    · obtain rfl := same
      exact .inl rfl
    · exact .inr (.interrupt below)
  | inside => exact advance_step m.kernel
  | resume => exact advance_step m.kernel
  | leave => exact advance_step m.kernel
  | invoke above free own allowed => exact .inr (.call above allowed)
  | begin => exact .inl rfl
  | call above job => exact .inr (.call above (asks _ ⟨above,_,_,_,_,job⟩))
  | act => exact .inl rfl
  | finish => exact .inl rfl

/-- The invariant rule: what the steps keep in the reachable states of the system below,
and what makes the calls of the drivers allowed there, holds in every run. -/
theorem runs_keep {P : Machine σ ι τ ρ δ κ ν → Prop} {below : Config σ ι τ ρ → Prop}
    (irq : ∀ s t, D.interrupt s t → t.1 = s.1 ∨ S.interrupt s.1 t.1)
    (start : ∀ m, init m → below m.kernel ∧ P m)
    (asks : ∀ m op, Reachable S below m.kernel → P m → m.Asks op → S.allowed m.running op m.kernel.state)
    (keeps : ∀ m n, Reachable S below m.kernel → Reachable S below n.kernel → P m → Step S D m n →
      may m n → P n)
    (run : Runs S D may init m) : Reachable S below m.kernel ∧ P m := by
  induction run with
  | init first => exact ⟨.init (start _ first).1,(start _ first).2⟩
  | @step m n run step admitted ih =>
    obtain ⟨reach,holds⟩ := ih
    have onward : Reachable S below n.kernel := by
      rcases step_below irq (fun op => asks m op reach holds) step with same | below
      · rw [same]
        exact reach
      · exact .step reach below
    exact ⟨onward,keeps m n reach onward holds step admitted⟩

theorem runs_mono {other : Machine σ ι τ ρ δ κ ν → Machine σ ι τ ρ δ κ ν → Prop} (run : Runs S D may init m)
    (weaker : ∀ m n, may m n → other m n) : Runs S D other init m := by
  induction run with
  | init start => exact .init start
  | step _ step admitted ih => exact .step ih step (weaker _ _ admitted)

theorem runs_onward {o : Machine σ ι τ ρ δ κ ν} (run : Runs S D may init m)
    (later : Runs S D may (fun first => first = m) o) : Runs S D may init o := by
  induction later with
  | init start =>
    subst start
    exact run
  | step _ step admitted ih => exact .step ih step admitted

/-- A call is the one that it was before the step, or it has just begun. -/
theorem step_job (step : Step S D m n) {i : ι} {j : Job δ τ ρ κ ν} (job : n.job i = some j) :
    (∃ l, m.job i = some l ∧ l.op = j.op ∧ l.entry = j.entry) ∨
      i = m.running ∧ m.job i = none ∧ j.entry = m.dev := by
  have own {l : Option (Job δ τ ρ κ ν)} (set : (m.setJob l).job i = some j) :
      m.job i = some j ∨ i = m.running ∧ l = some j := by
    by_cases same : i = m.running
    · subst same
      exact .inr ⟨rfl,(m.setJob_self l).symm.trans set⟩
    · exact .inl ((m.setJob_other l same).symm.trans set)
  cases step with
  | interrupt | inside | leave | invoke | call => exact .inl ⟨j,job,rfl,rfl⟩
  | resume _ before | act _ before =>
    rcases own job with same | ⟨rfl,set⟩
    · exact .inl ⟨j,same,rfl,rfl⟩
    · obtain rfl := Option.some.inj set
      exact .inl ⟨_,before,rfl,rfl⟩
  | begin _ free =>
    rcases own job with same | ⟨rfl,set⟩
    · exact .inl ⟨j,same,rfl,rfl⟩
    · obtain rfl := Option.some.inj set
      exact .inr ⟨rfl,free,rfl⟩
  | finish =>
    rcases own job with same | ⟨rfl,set⟩
    · exact .inl ⟨j,same,rfl,rfl⟩
    · cases set

/-- A call of the system below is the one that the code of the driver asks for, or one
that the thread may make itself. -/
structure Matching (D : Drivers σ ι τ ρ δ κ ν) (m : Machine σ ι τ ρ δ κ ν) : Prop where
  asked : ∀ i b j, m.kernel.call i = some b → m.job i = some j → ∃ next, j.rest = .call b.op next
  own : ∀ i b, m.kernel.call i = some b → m.job i = none → D.free b.op

theorem advance_call {c : Config σ ι τ ρ} {i : ι} {b : Call σ τ ρ} (call : (advance S c).call i = some b) :
    ∃ a, c.call i = some a ∧ a.op = b.op ∧ a.entry = b.entry := by
  have goes {a : Call σ τ ρ} {calls : Option (Call σ τ ρ)} (busy : c.call c.running = some a)
      (after : ∀ b, calls = some b → a.op = b.op ∧ a.entry = b.entry)
      (call : Function.update c.call c.running calls i = some b) :
      ∃ a, c.call i = some a ∧ a.op = b.op ∧ a.entry = b.entry := by
    by_cases same : i = c.running
    · subst same
      rw [Function.update_self] at call
      exact ⟨a,busy,after b call⟩
    · rw [Function.update_of_ne same] at call
      exact ⟨b,call,rfl,rfl⟩
  unfold advance at call
  split at call
  · next busy => exact goes busy (fun b same => by cases same; exact ⟨rfl,rfl⟩) call
  · next busy => exact goes busy (fun b same => by cases same; exact ⟨rfl,rfl⟩) call
  · next busy => exact goes busy (fun b same => by cases same) call
  · exact ⟨b,call,rfl,rfl⟩

theorem advance_returned {c : Config σ ι τ ρ} {below : τ} {r : ρ} (returns : returning c = some (below,r)) :
    advance S c = {c with call := Function.update c.call c.running none} := by
  obtain ⟨entry,busy⟩ := returning_call returns
  unfold advance
  rw [busy]

theorem invoke_call {c : Config σ ι τ ρ} {op : τ} {i : ι} {b : Call σ τ ρ}
    (call : (invoke S op c).call i = some b) :
    i = c.running ∧ b.op = op ∧ b.entry = c.state ∨ i ≠ c.running ∧ c.call i = some b := by
  unfold invoke at call
  dsimp only at call
  by_cases same : i = c.running
  · subst same
    rw [Function.update_self] at call
    obtain rfl := Option.some.inj call
    exact .inl ⟨rfl,rfl,rfl⟩
  · rw [Function.update_of_ne same] at call
    exact .inr ⟨same,call⟩

theorem advance_still {c : Config σ ι τ ρ} {b : Call σ τ ρ} (busy : c.call c.running = some b)
    (onward : returning c = none) :
    ∃ a, (advance S c).call c.running = some a ∧ a.op = b.op ∧ a.entry = b.entry := by
  unfold returning at onward
  rw [busy] at onward
  obtain ⟨op,entry,rest⟩ := b
  unfold advance
  rw [busy]
  cases rest with
  | ret r => cases onward
  | step | switch => exact ⟨_,Function.update_self _ _ _,rfl,rfl⟩
  | fault | exit => exact ⟨_,busy,rfl,rfl⟩

theorem advance_other {c : Config σ ι τ ρ} {i : ι} (other : i ≠ c.running) :
    (advance S c).call i = c.call i := by
  unfold advance
  split
  · exact Function.update_of_ne other _ _
  · exact Function.update_of_ne other _ _
  · exact Function.update_of_ne other _ _
  · rfl

theorem step_other {i : ι} (step : Step S D m n) (other : i ≠ m.running) :
    n.job i = m.job i ∧ n.kernel.call i = m.kernel.call i := by
  cases step with
  | interrupt => exact ⟨rfl,rfl⟩
  | inside | leave => exact ⟨rfl,advance_other other⟩
  | resume => exact ⟨m.setJob_other _ other,advance_other other⟩
  | invoke | call => exact ⟨rfl,Function.update_of_ne other _ _⟩
  | begin | act | finish => exact ⟨m.setJob_other _ other,rfl⟩

theorem step_matching (matching : Matching D m) (step : Step S D m n) : Matching D n := by
  obtain ⟨asked,own⟩ := matching
  -- calls in progress whose jobs stay as they were
  have kept (call : ∀ i b, n.kernel.call i = some b → ∃ a, m.kernel.call i = some a ∧ a.op = b.op ∧
      n.job i = m.job i) : Matching D n := by
    refine ⟨fun i b j below job => ?_,fun i b below free => ?_⟩
    · obtain ⟨a,before,op,same⟩ := call i b below
      exact op ▸ asked i a j before (same.symm.trans job)
    · obtain ⟨a,before,op,same⟩ := call i b below
      exact op ▸ own i a before (same.symm.trans free)
  have above_other (above : m.Above) {i : ι} {b : Call σ τ ρ} (call : m.kernel.call i = some b) :
      i ≠ m.running := by
    rintro rfl
    cases above.symm.trans call
  cases step with
  | interrupt => exact ⟨asked,own⟩
  | inside | leave =>
    refine kept fun i b call => ?_
    obtain ⟨a,before,op,_⟩ := advance_call call
    exact ⟨a,before,op,rfl⟩
  | resume returns job =>
    refine kept fun i b call => ?_
    dsimp only at call
    rw [advance_returned returns] at call
    have other : i ≠ m.running := by
      rintro rfl
      simp at call
    dsimp only at call
    rw [Function.update_of_ne other] at call
    exact ⟨b,call,rfl,m.setJob_other _ other⟩
  | invoke above free permitted allowed =>
    refine ⟨fun i b j call job => ?_,fun i b call unused => ?_⟩
    · rcases invoke_call call with ⟨rfl,_⟩ | ⟨_,before⟩
      · cases free.symm.trans job
      · exact asked i b j before job
    · rcases invoke_call call with ⟨rfl,rfl,_⟩ | ⟨_,before⟩
      · exact permitted
      · exact own i b before unused
  | @call k entry pc op next above job =>
    refine ⟨fun i b j call held => ?_,fun i b call free => ?_⟩
    · rcases invoke_call call with ⟨rfl,rfl,_⟩ | ⟨_,before⟩
      · obtain rfl := Option.some.inj (job.symm.trans held)
        exact ⟨next,rfl⟩
      · exact asked i b j before held
    · rcases invoke_call call with ⟨rfl,_⟩ | ⟨_,before⟩
      · cases job.symm.trans free
      · exact own i b before free
  | begin above | act above | finish above =>
    exact kept fun i b call => ⟨b,call,rfl,m.setJob_other _ (above_other above call)⟩

/-- The running thread goes on. -/
def forward (S : System σ ι τ ρ) (m : Machine σ ι τ ρ δ κ ν) : Machine σ ι τ ρ δ κ ν :=
  match m.kernel.call m.running with
  | some _ =>
    match returning m.kernel with
    | none => {m with kernel := advance S m.kernel}
    | some (_,r) =>
      match m.job m.running with
      | some ⟨k,entry,pc,.call _ next⟩ =>
        {m.setJob (some ⟨k,entry,pc + 1,next r⟩) with kernel := advance S m.kernel}
      | none => {m with kernel := advance S m.kernel}
      | _ => m
  | none =>
    match m.job m.running with
    | some ⟨_,_,_,.call op _⟩ => {m with kernel := invoke S op m.kernel}
    | some ⟨k,entry,pc,.act update next⟩ =>
      {m.setJob (some ⟨k,entry,pc + 1,next m.dev⟩) with dev := update m.dev}
    | some ⟨_,_,_,.ret _⟩ => m.setJob none
    | _ => m

theorem forward_step (m : Machine σ ι τ ρ δ κ ν) : forward S m = m ∨ Step S D m (forward S m) := by
  unfold forward
  split
  · next busy =>
    split
    · next onward => exact .inr (.inside busy onward)
    · next returns =>
      split
      · next job => exact .inr (.resume returns job)
      · next free => exact .inr (.leave returns free)
      · exact .inl rfl
  · next above =>
    split
    · next job => exact .inr (.call above job)
    · next job => exact .inr (.act above job)
    · next job => exact .inr (.finish above job)
    · exact .inl rfl

end Steps

section Script

variable [DecidableEq ι] {S : System σ ι τ ρ} {D : Drivers σ ι τ ρ δ κ ν} {m n : Machine σ ι τ ρ δ κ ν}
  {may : Machine σ ι τ ρ δ κ ν → Machine σ ι τ ρ δ κ ν → Prop} {init : Machine σ ι τ ρ δ κ ν → Prop}
  {χ : Type} {cut : χ → σ × δ → Option (σ × δ)}

/-- What a script lets happen: an interrupt, a call of a driver or of the system below
by the running thread, and a number of its steps. -/
inductive Event (χ τ κ : Type) : Type
  | interrupt (x : χ)
  | begin (k : κ)
  | invoke (op : τ)
  | run (n : Nat)

/-- The machine after a step that is admitted. -/
def permit (may : Machine σ ι τ ρ δ κ ν → Machine σ ι τ ρ δ κ ν → Prop) [DecidableRel may]
    (m n : Machine σ ι τ ρ δ κ ν) : Option (Machine σ ι τ ρ δ κ ν) := if may m n then some n else none

def forwards (S : System σ ι τ ρ) (may : Machine σ ι τ ρ δ κ ν → Machine σ ι τ ρ δ κ ν → Prop)
    [DecidableRel may] : Nat → Machine σ ι τ ρ δ κ ν → Option (Machine σ ι τ ρ δ κ ν)
  | 0,m => some m
  | n+1,m => (permit may m (forward S m)).bind (forwards S may n)

section Decide

variable (S D may cut) [∀ i k, Decidable (D.begins i k)] [DecidablePred D.free]
  [∀ i op s, Decidable (S.allowed i op s)] [DecidableRel may]

def event (m : Machine σ ι τ ρ δ κ ν) : Event χ τ κ → Option (Machine σ ι τ ρ δ κ ν)
  | .interrupt x =>
    (cut x (m.kernel.state,m.dev)).bind fun t =>
      permit may m {m with kernel := {m.kernel with state := t.1},dev := t.2}
  | .begin k =>
    match m.kernel.call m.running,m.job m.running with
    | none,none =>
      if D.begins m.running k then permit may m (m.setJob (some ⟨k,m.dev,0,D.body m.running k⟩)) else none
    | _,_ => none
  | .invoke op =>
    match m.kernel.call m.running,m.job m.running with
    | none,none =>
      if D.free op ∧ S.allowed m.running op m.kernel.state then
        permit may m {m with kernel := invoke S op m.kernel}
      else none
    | _,_ => none
  | .run n => forwards S may n m

def script : List (Event χ τ κ) → Machine σ ι τ ρ δ κ ν → Option (Machine σ ι τ ρ δ κ ν)
  | [],m => some m
  | e::es,m => (event S D may cut m e).bind (script es)

end Decide

theorem permit_runs [DecidableRel may] (run : Runs S D may init m) (step : n = m ∨ Step S D m n)
    {o : Machine σ ι τ ρ δ κ ν} (admitted : permit may m n = some o) : Runs S D may init o := by
  unfold permit at admitted
  split at admitted
  · next holds =>
    obtain rfl := Option.some.inj admitted
    rcases step with rfl | step
    · exact run
    · exact .step run step holds
  · cases admitted

theorem forwards_runs [DecidableRel may] {o : Machine σ ι τ ρ δ κ ν} {k : Nat}
    (run : Runs S D may init m) (goes : forwards S may k m = some o) : Runs S D may init o := by
  induction k generalizing m with
  | zero =>
    obtain rfl := Option.some.inj goes
    exact run
  | succ k ih =>
    obtain ⟨p,first,rest⟩ := Option.bind_eq_some_iff.mp goes
    exact ih (permit_runs run (forward_step m) first) rest

variable [∀ i k, Decidable (D.begins i k)] [DecidablePred D.free] [∀ i op s, Decidable (S.allowed i op s)]
  [DecidableRel may]

theorem event_runs {e : Event χ τ κ} {o : Machine σ ι τ ρ δ κ ν} (run : Runs S D may init m)
    (sound : ∀ x s t, cut x s = some t → D.interrupt s t) (goes : event S D may cut m e = some o) :
    Runs S D may init o := by
  unfold event at goes
  split at goes
  · obtain ⟨t,irq,goes⟩ := Option.bind_eq_some_iff.mp goes
    exact permit_runs run (.inr (.interrupt (sound _ _ _ irq))) goes
  · split at goes
    · next above free =>
      split at goes
      · next begins => exact permit_runs run (.inr (.begin above free begins)) goes
      · cases goes
    · cases goes
  · split at goes
    · next above free =>
      split at goes
      · next both => exact permit_runs run (.inr (.invoke above free both.1 both.2)) goes
      · cases goes
    · cases goes
  · exact forwards_runs run goes

theorem script_runs {es : List (Event χ τ κ)} {o : Machine σ ι τ ρ δ κ ν} (run : Runs S D may init m)
    (sound : ∀ x s t, cut x s = some t → D.interrupt s t) (goes : script S D may cut es m = some o) :
    Runs S D may init o := by
  induction es generalizing m with
  | nil =>
    obtain rfl := Option.some.inj goes
    exact run
  | cons e es ih =>
    obtain ⟨p,first,rest⟩ := Option.bind_eq_some_iff.mp goes
    exact ih (event_runs run sound first) rest

/-- The run of a script, with what is found by evaluation of its last state. -/
theorem script_ends (es : List (Event χ τ κ)) {P : Machine σ ι τ ρ δ κ ν → Prop} [DecidablePred P]
    (run : Runs S D may init m) (sound : ∀ x s t, cut x s = some t → D.interrupt s t)
    (goes : (script S D may cut es m).any (fun o => decide (P o)) = true) :
    ∃ o, Runs S D may init o ∧ P o := by
  obtain ⟨o,ends,holds⟩ := (Option.any_eq_true _ _).mp goes
  exact ⟨o,script_runs run sound ends,of_decide_eq_true holds⟩

end Script

end BermudaOS.Lib.Clients
