import BermudaOS.Dev.Drivers

/-! The analog to digital converter of `arch/avr/adc.c`. A conversion waits for the
mutex of the converter with a time-out, and gives it back when it has the result. -/
namespace BermudaOS.Dev.Adc
open Sys.VirtTimer Sys.Sched Lib.Program Lib.Clients

/-- The registers of the converter and its reference setting. -/
structure Registers where
  aref : Nat
  adcsra : Nat
  admux : Nat
  adcl : Nat
  adch : Nat
  deriving DecidableEq

/-- The two event queues of the converter. -/
structure Queues where
  mutex : Addr
  queue : Addr
  apart : mutex ≠ queue

/-- A call: the pin and the time-out. -/
structure Request where
  pin : Nat
  tmo : Nat
  deriving DecidableEq

def aden : Nat := 7

def adsc : Nat := 6

def bermudaBoardAnalogPinAdjust (pin : Nat) : Nat := (pin + 2^8 - 14) % 2^8

abbrev AdcCode := Code Registers Op Int

def bermudaADCConvert (adc : Queues) (pin tmo : Nat) : AdcCode Nat := do
  let pin := bermudaBoardAnalogPinAdjust pin
  let _ ← Code.ask (.bermudaEventWait adc.mutex tmo)
  let adcsra ← Code.read Registers.adcsra
  if !adcsra.testBit aden then return 0
  Code.write fun d => {d with admux := ((pin &&& 7) ||| (d.aref <<< 6)) % 2^8}
  Code.write fun d => {d with adcsra := d.adcsra ||| (1 <<< adsc)}
  let _ ← Code.ask (.bermudaEventWaitNext (some adc.queue) tmo)
  let low ← Code.read Registers.adcl
  let high ← Code.read Registers.adch
  let _ ← Code.ask (.bermudaEventSignal adc.mutex)
  return low ||| (high <<< 8)

/-- The hardware, and whoever writes its registers, changes what the registers hold. -/
inductive Hardware : Kernel × Registers → Kernel × Registers → Prop
  | change {k : Kernel} {d : Registers} (adcsra adcl adch : Nat) :
      Hardware (k,d) (k,{d with adcsra := adcsra,adcl := adcl,adch := adch})

def drivers (u : Usage) (adc : Queues) : Drivers Kernel Addr Op Int Registers Request Nat where
  body _ r := bermudaADCConvert adc r.pin r.tmo
  begins i _ := i ≠ u.idle
  interrupt := Interrupt u Hardware
  free := Aside adc.mutex

abbrev AdcMachine := Machine Kernel Addr Op Int Registers Request Nat

/-- The places in the code of a conversion. -/
inductive Stage
  | wait
  | test
  | select
  | start
  | convert
  | low
  | high (byte : Nat)
  | signal (value : Nat)
  | done (value : Nat)

section Code

variable (adc : Queues) (r : Request)

def fromSignal (value : Nat) : AdcCode Nat := do
  let _ ← Code.ask (.bermudaEventSignal adc.mutex)
  return value

def fromHigh (low : Nat) : AdcCode Nat := do
  let high ← Code.read Registers.adch
  fromSignal adc (low ||| (high <<< 8))

def fromLow : AdcCode Nat := do
  let low ← Code.read Registers.adcl
  fromHigh adc low

def fromConvert : AdcCode Nat := do
  let _ ← Code.ask (.bermudaEventWaitNext (some adc.queue) r.tmo)
  fromLow adc

def fromStart : AdcCode Nat := do
  Code.write fun d => {d with adcsra := d.adcsra ||| (1 <<< adsc)}
  fromConvert adc r

def fromSelect : AdcCode Nat := do
  Code.write fun d =>
    {d with admux := ((bermudaBoardAnalogPinAdjust r.pin &&& 7) ||| (d.aref <<< 6)) % 2^8}
  fromStart adc r

def fromTest : AdcCode Nat := do
  let adcsra ← Code.read Registers.adcsra
  if !adcsra.testBit aden then return 0
  fromSelect adc r

/-- What is left to do of a conversion. -/
def Stage.code : Stage → AdcCode Nat
  | .wait => bermudaADCConvert adc r.pin r.tmo
  | .test => fromTest adc r
  | .select => fromSelect adc r
  | .start => fromStart adc r
  | .convert => fromConvert adc r
  | .low => fromLow adc
  | .high byte => fromHigh adc byte
  | .signal value => fromSignal adc value
  | .done value => return value

/-- Between the selection of the channel and the reading of the result. -/
def Stage.converts : Stage → Prop
  | .select | .start | .convert | .low | .high _ => True
  | _ => False

variable {adc r}

theorem code_call {st : Stage} {op : Op} {next : Int → AdcCode Nat} (code : st.code adc r = .call op next) :
    st = .wait ∧ op = .bermudaEventWait adc.mutex r.tmo ∧ (∀ x, next x = Stage.test.code adc r) ∨
    st = .convert ∧ op = .bermudaEventWaitNext (some adc.queue) r.tmo ∧
      (∀ x, next x = Stage.low.code adc r) ∨
    ∃ v, st = .signal v ∧ op = .bermudaEventSignal adc.mutex ∧ ∀ x, next x = (Stage.done v).code adc r := by
  cases st with
  | wait =>
    obtain ⟨rfl,rfl⟩ := Code.call.inj code
    exact .inl ⟨rfl,rfl,fun _ => rfl⟩
  | convert =>
    obtain ⟨rfl,rfl⟩ := Code.call.inj code
    exact .inr (.inl ⟨rfl,rfl,fun _ => rfl⟩)
  | signal v =>
    obtain ⟨rfl,rfl⟩ := Code.call.inj code
    exact .inr (.inr ⟨v,rfl,rfl,fun _ => rfl⟩)
  | _ => cases code

/-- The accesses and calls that a conversion has made before the stage. -/
def Stage.reached : Stage → Nat → Prop
  | .wait,n => n = 0
  | .test,n => n = 1
  | .select,n => n = 2
  | .start,n => n = 3
  | .convert,n => n = 4
  | .low,n => n = 5
  | .high _,n => n = 6
  | .signal _,n => n = 7
  | .done _,n => n = 2 ∨ n = 8

/-- The stage after an access to the registers. -/
def Stage.next (d : Registers) : Stage → Stage
  | .test => if d.adcsra.testBit aden then .select else .done 0
  | .select => .start
  | .start => .convert
  | .low => .high d.adcl
  | .high byte => .signal (byte ||| (d.adch <<< 8))
  | st => st

theorem code_act {st : Stage} {update : Registers → Registers} {next : Registers → AdcCode Nat}
    (code : st.code adc r = .act update next) :
    (st = .test ∨ st.converts ∧ st ≠ .convert) ∧ ∀ d, next d = (st.next d).code adc r := by
  cases st with
  | test =>
    obtain ⟨rfl,rfl⟩ := Code.act.inj code
    refine ⟨.inl rfl,fun d => ?_⟩
    change (if !d.adcsra.testBit aden then pure 0 else fromSelect adc r) =
      (if d.adcsra.testBit aden then Stage.select else .done 0).code adc r
    cases d.adcsra.testBit aden with
    | false => rfl
    | true => rfl
  | select | start | low | high =>
    obtain ⟨rfl,rfl⟩ := Code.act.inj code
    exact ⟨.inr ⟨trivial,by simp⟩,fun _ => rfl⟩
  | _ => cases code

theorem code_ret {st : Stage} {v : Nat} (code : st.code adc r = .ret v) : st = .done v := by
  cases st with
  | done w => exact congrArg Stage.done (Code.ret.inj code)
  | _ => cases code

end Code

/-- Where a thread may own the mutex; `busy` while a call of the kernel is in progress. -/
def Stage.mayOwn (busy : Bool) : Stage → Prop
  | .wait => busy = true
  | .done _ => False
  | _ => True

def Stage.mustOwn (busy : Bool) : Stage → Prop
  | .wait | .test | .done _ => False
  | .signal _ => busy = false
  | _ => True

theorem next_reached {st : Stage} {n : Nat} (d : Registers) (place : st = .test ∨ st.converts ∧ st ≠ .convert)
    (reached : st.reached n) : (st.next d).reached (n + 1) := by
  rcases place with rfl | ⟨inside,other⟩
  · obtain rfl : n = 1 := reached
    cases enabled : d.adcsra.testBit aden with
    | false => simp [Stage.next,enabled,Stage.reached]
    | true => simp [Stage.next,enabled,Stage.reached]
  · cases st with
    | wait | test | signal | done => exact inside.elim
    | convert => exact absurd rfl other
    | _ => exact congrArg (· + 1) reached

/-- An access to the registers leaves the mutex with whom it should be, if the test of
`ADEN` tells whether the call was let through. -/
theorem next_owns {st : Stage} {d : Registers} {own : Prop} (place : st = .test ∨ st.converts ∧ st ≠ .convert)
    (test : st = .test → (d.adcsra.testBit aden = true ↔ own)) (must : st.mustOwn false → own) :
    (own → (st.next d).mayOwn false) ∧ ((st.next d).mustOwn false → own) := by
  rcases place with rfl | ⟨inside,_⟩
  · have same := test rfl
    cases enabled : d.adcsra.testBit aden with
    | false => simpa [Stage.next,enabled,Stage.mayOwn,Stage.mustOwn] using same
    | true => simpa [Stage.next,enabled,Stage.mayOwn,Stage.mustOwn] using same
  · cases st with
    | wait | test | signal | done => exact inside.elim
    | _ => exact ⟨fun _ => trivial,fun _ => must trivial⟩

variable {u : Usage} {adc : Queues} {m n : AdcMachine} {i : Addr}

/-- A conversion by thread `i` at stage `st`. -/
structure Holds (adc : Queues) (m : AdcMachine) (i : Addr) (j : Job Registers Op Int Request Nat)
    (st : Stage) : Prop where
  rest : j.rest = st.code adc j.op
  pc : st.reached j.pc
  may : i ∈ m.kernel.state.owners adc.mutex → st.mayOwn (m.kernel.call i).isSome
  must : st.mustOwn (m.kernel.call i).isSome → i ∈ m.kernel.state.owners adc.mutex
  entry : ∀ b, m.kernel.call i = some b → st = .wait → i ∉ b.entry.owners adc.mutex

/-- Only conversions own the mutex. -/
structure Owned (u : Usage) (adc : Queues) (m : AdcMachine) : Prop where
  jobs : ∀ i j, m.job i = some j → i ≠ u.idle ∧ ∃ st, Holds adc m i j st
  out : ∀ i, m.job i = none → i ∉ m.kernel.state.owners adc.mutex

/-- Where a call tests `ADEN`, the converter is enabled exactly if the call was let
through the mutex. -/
def Enabled (adc : Queues) (m n : AdcMachine) : Prop :=
  ∀ j ∈ m.job m.running,∀ l ∈ n.job m.running,j.pc = 1 → l.pc = 2 →
    (m.dev.adcsra.testBit aden = true ↔ m.running ∈ m.kernel.state.owners adc.mutex)

instance : DecidableRel (Enabled adc) := fun m n =>
  inferInstanceAs (Decidable (∀ j ∈ m.job m.running,∀ l ∈ n.job m.running,_))

theorem waits_stage {r : Request} {st : Stage} {op : Op}
    {next : Int → AdcCode Nat} (code : st.code adc r = .call op next) (waits : op.waits = some adc.mutex) :
    st = .wait := by
  rcases code_call code with ⟨rfl,_⟩ | ⟨_,rfl,_⟩ | ⟨_,_,rfl,_⟩
  · rfl
  · exact absurd (Option.some.inj waits).symm adc.apart
  · cases waits

theorem Holds.other (gentle : Gentle u)
    (reach : Reachable (scheduler u) (booted u) m.kernel) (matching : Matching (drivers u adc) m)
    (ownership : Ownership m.kernel n.kernel adc.mutex) (other : i ≠ m.running)
    (call : n.kernel.call i = m.kernel.call i) {j : Job Registers Op Int Request Nat} {st : Stage}
    (job : m.job i = some j) (holds : Holds adc m i j st) : Holds adc n i j st := by
  obtain ⟨rest,pc,may,must,entry⟩ := holds
  rcases owner_other gentle (fun _ => id) reach matching ownership other with
    same | ⟨b,l,next,busy,again,code,waits⟩
  · exact ⟨rest,pc,by rwa [call,same],by rwa [call,same],by rwa [call]⟩
  · obtain rfl := Option.some.inj (job.symm.trans again)
    obtain rfl := waits_stage (rest.symm.trans code) waits
    refine ⟨rest,pc,fun _ => ?_,fun absurd => absurd.elim,by rwa [call]⟩
    simp [Stage.mayOwn,call,busy]

theorem owned_running (gentle : Gentle u) (locked : u.lock adc.mutex)
    (reach : Reachable (scheduler u) (booted u) m.kernel) (matching : Matching (drivers u adc) m)
    (owned : Owned u adc m) (step : Lib.Clients.Step (scheduler u) (drivers u adc) m n)
    (ownership : Ownership m.kernel n.kernel adc.mutex) (enabled : Enabled adc m n) :
    (∀ j, n.job m.running = some j → m.running ≠ u.idle ∧ ∃ st, Holds adc n m.running j st) ∧
      (n.job m.running = none → m.running ∉ n.kernel.state.owners adc.mutex) := by
  obtain ⟨jobs,out⟩ := owned
  cases step with
  | @interrupt s d irq =>
    have owners : s.owners = m.kernel.state.owners := by
      rcases Interrupt.below irq with same | below
      · exact congrArg Kernel.owners same
      · exact irq_owners below
    refine ⟨fun j job => ?_,fun job => by simpa [owners] using out _ job⟩
    obtain ⟨real,st,rest,pc,may,must,entry⟩ := jobs _ j job
    exact ⟨real,st,rest,pc,by simpa [owners] using may,by simpa [owners] using must,entry⟩
  | @inside b busy onward =>
    obtain ⟨a,still,op,entry⟩ := advance_still (S := scheduler u) busy onward
    have calling (op : Op) (now : Calling m.kernel m.running op) : op = b.op := by
      obtain ⟨_,also,rfl⟩ := now
      rw [Option.some.inj (busy.symm.trans also)]
    refine ⟨fun j job => ?_,fun job now => ?_⟩
    · obtain ⟨real,st,rest,pc,may,must,before⟩ := jobs _ j job
      obtain ⟨next,code⟩ := matching.asked _ b j busy job
      refine ⟨real,st,rest,pc,?_,?_,?_⟩
      · intro _
        rcases code_call (rest.symm.trans code) with ⟨rfl,_⟩ | ⟨rfl,_⟩ | ⟨v,rfl,_⟩
        · simp [Stage.mayOwn,still]
        · trivial
        · trivial
      · intro must'
        rcases code_call (rest.symm.trans code) with ⟨rfl,_⟩ | ⟨rfl,about,_⟩ | ⟨v,rfl,_⟩
        · exact must'.elim
        · refine ownership.kept (fun op now => ?_) (must trivial)
          rw [calling op now,about]
          simp [Op.signals]
        · simp [Stage.mustOwn,still] at must'
      · intro a' same wait
        rw [← Option.some.inj (still.symm.trans same),entry]
        exact before b busy wait
    · have aside := matching.own _ b busy job
      exact out _ job (ownership.gained (fun op now => calling op now ▸ aside.1) now)
  | @resume k entry pc op next below r returns job =>
    obtain ⟨before,busy⟩ := returning_call returns
    obtain ⟨next',code⟩ := matching.asked _ _ _ busy job
    obtain ⟨rfl,_⟩ := Code.call.inj code
    obtain ⟨real,st,rest,pc,may,must,_⟩ := jobs _ _ job
    refine ⟨fun j same => ?_,fun free => ?_⟩
    · obtain rfl := Option.some.inj ((m.setJob_self _).symm.trans same)
      have above : (advance (scheduler u) m.kernel).call m.running = none := by
        rw [advance_returned returns]
        exact Function.update_self _ _ _
      have state : (advance (scheduler u) m.kernel).state = m.kernel.state := by
        rw [advance_returned returns]
      have quiet (b : Call Kernel Op Int) (call : (advance (scheduler u) m.kernel).call m.running = some b) :
          False := by
        rw [above] at call
        cases call
      rcases code_call rest.symm with ⟨rfl,_,onward⟩ | ⟨rfl,_,onward⟩ | ⟨v,rfl,about,onward⟩
      · exact ⟨real,.test,onward r,congrArg (· + 1) pc,fun _ => trivial,False.elim,
          fun b call => (quiet b call).elim⟩
      · refine ⟨real,.low,onward r,congrArg (· + 1) pc,fun _ => trivial,fun _ => ?_,
          fun b call => (quiet b call).elim⟩
        dsimp only
        rw [state]
        exact must trivial
      · refine ⟨real,.done v,onward r,.inr (congrArg (· + 1) pc),fun own => ?_,False.elim,
          fun b call => (quiet b call).elim⟩
        dsimp only at own
        rw [state] at own
        rw [about] at busy
        exact (lock_exclusive gentle locked reach).unlocked _ _ busy own
    · cases (m.setJob_self _).symm.trans free
  | @leave below r returns free =>
    refine ⟨fun j job => ?_,fun _ => ?_⟩
    · cases free.symm.trans job
    · dsimp only
      rw [advance_returned returns]
      exact out _ free
  | @invoke op above free own allowed =>
    refine ⟨fun j job => ?_,fun _ => out _ free⟩
    cases free.symm.trans job
  | @begin k above free begins =>
    refine ⟨fun j same => ?_,fun none => ?_⟩
    · obtain rfl := Option.some.inj ((m.setJob_self _).symm.trans same)
      refine ⟨begins,.wait,rfl,rfl,fun own => absurd own (out _ free),False.elim,fun b busy => ?_⟩
      cases above.symm.trans busy
    · cases (m.setJob_self _).symm.trans none
  | @call k entry pc op next above job =>
    obtain ⟨real,st,rest,pc,may,must,_⟩ := jobs _ _ job
    have busy : (invoke (scheduler u) op m.kernel).call m.running =
        some ⟨op,m.kernel.state,(scheduler u).body op⟩ := Function.update_self _ _ _
    unfold Machine.Above at above
    refine ⟨fun j same => ?_,fun free => ?_⟩
    · obtain rfl := Option.some.inj (job.symm.trans same)
      refine ⟨real,st,rest,pc,fun own => ?_,fun must' => ?_,fun b call wait => ?_⟩
      · rcases code_call rest.symm with ⟨rfl,_⟩ | ⟨rfl,_⟩ | ⟨v,rfl,_⟩
        · simp [Stage.mayOwn,busy]
        · trivial
        · trivial
      · apply must
        rcases code_call rest.symm with ⟨rfl,_⟩ | ⟨rfl,_⟩ | ⟨v,rfl,_⟩
        · exact must'
        · trivial
        · simp [Stage.mustOwn,busy] at must'
      · obtain rfl := Option.some.inj (busy.symm.trans call)
        subst wait
        intro own
        simpa [Stage.mayOwn,above] using may own
    · cases job.symm.trans free
  | @act k entry pc update next above job =>
    obtain ⟨real,st,rest,pc,may,must,_⟩ := jobs _ _ job
    obtain ⟨place,onward⟩ := code_act rest.symm
    unfold Machine.Above at above
    rw [above] at may must
    refine ⟨fun j same => ?_,fun free => ?_⟩
    · obtain rfl := Option.some.inj ((m.setJob_self _).symm.trans same)
      have enabled (here : st = .test) :
          m.dev.adcsra.testBit aden = true ↔ m.running ∈ m.kernel.state.owners adc.mutex := by
        subst here
        exact enabled _ job _ (m.setJob_self _) pc (congrArg (· + 1) pc)
      obtain ⟨may,must⟩ := next_owns place enabled must
      refine ⟨real,st.next m.dev,onward m.dev,next_reached m.dev place pc,?_,?_,?_⟩
      · simpa only [Machine.setJob,above,Option.isSome_none] using may
      · simpa only [Machine.setJob,above,Option.isSome_none] using must
      · intro b busy
        cases above.symm.trans busy
    · cases (m.setJob_self _).symm.trans free
  | @finish k entry pc v above job =>
    obtain ⟨real,st,rest,pc,may,must,_⟩ := jobs _ _ job
    obtain rfl := code_ret rest.symm
    refine ⟨fun j same => ?_,fun _ own => may own⟩
    cases (m.setJob_self _).symm.trans same

theorem holds_asks {op : Op} (owned : Owned u adc m) (ask : m.Asks op) :
    op = .bermudaEventSignal adc.mutex ∧ m.running ∈ m.kernel.state.owners adc.mutex ∨
      m.running ≠ u.idle ∧ ((∃ tmo, op = .bermudaEventWait adc.mutex tmo) ∨
        ∃ tmo, op = .bermudaEventWaitNext (some adc.queue) tmo) := by
  obtain ⟨above,k,entry,pc,next,job⟩ := ask
  obtain ⟨real,st,rest,_,_,must,_⟩ := owned.jobs _ _ job
  unfold Machine.Above at above
  rcases code_call rest.symm with ⟨_,about,_⟩ | ⟨_,about,_⟩ | ⟨v,rfl,about,_⟩
  · exact .inr ⟨real,.inl ⟨_,about⟩⟩
  · exact .inr ⟨real,.inr ⟨_,about⟩⟩
  · refine .inl ⟨about,must ?_⟩
    rw [above]
    exact rfl

theorem owned_step (gentle : Gentle u) (locked : u.lock adc.mutex)
    (asks : ∀ op, m.Asks op → allowed u m.running op m.kernel.state)
    (reach : Reachable (scheduler u) (booted u) m.kernel) (matching : Matching (drivers u adc) m)
    (owned : Owned u adc m) (step : Lib.Clients.Step (scheduler u) (drivers u adc) m n)
    (enabled : Enabled adc m n) : Owned u adc n := by
  have ownership : Ownership m.kernel n.kernel adc.mutex :=
    driver_ownership gentle locked (fun _ _ => Interrupt.below) asks reach step
  obtain ⟨jobs,out⟩ := owned_running gentle locked reach matching owned step ownership enabled
  refine ⟨fun i j job => ?_,fun i free => ?_⟩
  · by_cases same : i = m.running
    · subst same
      exact jobs j job
    · obtain ⟨jobs,call⟩ := step_other step same
      rw [jobs] at job
      obtain ⟨real,st,holds⟩ := owned.jobs i j job
      exact ⟨real,st,holds.other gentle reach matching ownership same call job⟩
  · by_cases same : i = m.running
    · subst same
      exact out free
    · rw [(step_other step same).1] at free
      rcases owner_other gentle (fun _ => id) reach matching ownership same with
        same | ⟨_,_,_,_,job,_⟩
      · exact same.not.mpr (owned.out i free)
      · cases free.symm.trans job

/-- Only the mutex of the converter is a lock. -/
def adcUsage (idle : Addr) (adc : Queues) : Usage where
  idle := idle
  lock q := q = adc.mutex
  raised q _ := q ≠ adc.mutex
  notifies t k := (k.thread t).state = .waiting
  apart _ _ := id

abbrev AdcRuns (idle : Addr) (adc : Queues) (may : AdcMachine → AdcMachine → Prop) : AdcMachine → Prop :=
  Runs (scheduler (adcUsage idle adc)) (drivers (adcUsage idle adc) adc) may
    (Started (adcUsage idle adc) fun _ => True)

/-- The channel is selected and the result is not read. -/
def Converting (m : AdcMachine) (i : Addr) : Prop := ∃ j ∈ m.job i,3 ≤ j.pc ∧ j.pc ≤ 6

/-- One conversion at a time, and the mutex with the calls that acquired it. -/
structure Exclusive (adc : Queues) (m : AdcMachine) : Prop where
  single : ∀ i j, Converting m i → Converting m j → i = j
  acquired : ∀ tmo r, returning m.kernel = some (.bermudaEventWait adc.mutex tmo,r) →
    (r = 0 ↔ m.running ∈ m.kernel.state.owners adc.mutex)
  releases : m.Asks (.bermudaEventSignal adc.mutex) → m.running ∈ m.kernel.state.owners adc.mutex
  released : ∀ i, ∀ j ∈ m.job i,∀ v, j.rest = .ret v → i ∉ m.kernel.state.owners adc.mutex
  idle : (∀ i, m.job i = none) → m.kernel.state.link (.event adc.mutex) = signaled

theorem Holds.converting {j : Job Registers Op Int Request Nat} {st : Stage} (holds : Holds adc m i j st)
    (low : 3 ≤ j.pc) (high : j.pc ≤ 6) : i ∈ m.kernel.state.owners adc.mutex := by
  obtain ⟨_,pc,_,must,_⟩ := holds
  cases st with
  | select | start | convert | low | high => exact must trivial
  | wait | test | signal | done =>
    dsimp only [Stage.reached] at pc
    omega

/-- Conversions exclude each other in the runs in which the test of `ADEN` agrees with
the wait for the mutex. -/
theorem conversions_exclusive {idle : Addr} {adc : Queues} {m : AdcMachine}
    (run : AdcRuns idle adc (Enabled adc) m) : Exclusive adc m := by
  have gentle : Gentle (adcUsage idle adc) := by
    rintro t k (waits : (k.thread t).state = .waiting)
    simp [waits]
  have locked : (adcUsage idle adc).lock adc.mutex := rfl
  have asks (m : AdcMachine) (op : Op) (owned : Owned (adcUsage idle adc) adc m) (ask : m.Asks op) :
      allowed (adcUsage idle adc) m.running op m.kernel.state := by
    rcases holds_asks owned ask with ⟨rfl,own⟩ | ⟨real,⟨tmo,rfl⟩ | ⟨tmo,rfl⟩⟩
    · exact fun _ => own
    · exact real
    · refine ⟨real,fun o same => ?_⟩
      obtain rfl := Option.some.inj same
      exact Ne.symm adc.apart
  obtain ⟨reach,matching,owned⟩ := drivers_keep (P := Owned (adcUsage idle adc) adc)
    (fun _ _ => Interrupt.below)
    (fun m start => by
      refine ⟨fun i j job => ?_,fun i _ => ?_⟩
      · cases (start.jobs i).symm.trans job
      · rw [(start.boot.1.locks adc.mutex locked).2]
        exact List.not_mem_nil)
    (fun m op _ owned ask => asks m op owned ask)
    (fun m n reach _ matching owned step enabled =>
      owned_step gentle locked (fun op ask => asks m op owned ask) reach matching owned step enabled) run
  have exclusive := lock_exclusive gentle locked reach
  refine ⟨fun i j => ?_,fun tmo r returns => ?_,fun ask => ?_,fun i j job v rest => ?_,fun none => ?_⟩
  · rintro ⟨a,busy,low,high⟩ ⟨b,also,low',high'⟩
    obtain ⟨_,st,holds⟩ := owned.jobs i a busy
    obtain ⟨_,st',holds'⟩ := owned.jobs j b also
    have one := single (holds.converting low high) exclusive.single
    have two := holds'.converting low' high'
    rw [one] at two
    exact (List.mem_singleton.mp two).symm
  · obtain ⟨entry,busy⟩ := returning_call returns
    cases job : m.job m.running with
    | none => exact absurd rfl (matching.own _ _ busy job).1
    | some j =>
      obtain ⟨next,code⟩ := matching.asked _ _ _ busy job
      obtain ⟨_,st,holds⟩ := owned.jobs _ j job
      obtain rfl := waits_stage (holds.rest.symm.trans code) rfl
      rcases exclusive.locked _ _ _ busy with ⟨zero,own⟩ | ⟨late,own⟩
      · simp [zero,own]
      · simpa [late] using fun now => holds.entry _ busy rfl (own now)
  · rcases holds_asks owned ask with ⟨_,own⟩ | ⟨_,⟨_,other⟩ | ⟨_,other⟩⟩
    · exact own
    · cases other
    · cases other
  · obtain ⟨_,st,holds⟩ := owned.jobs i j job
    obtain rfl := code_ret (holds.rest.symm.trans rest)
    exact holds.may
  · exact exclusive.word.mpr (List.eq_nil_iff_forall_not_mem.mpr fun i => owned.out i (none i))

section Script

variable {idle : Addr}

instance : DecidablePred (adcUsage idle adc).lock := fun q => inferInstanceAs (Decidable (q = adc.mutex))

instance {q : Addr} {k : Kernel} : Decidable ((adcUsage idle adc).raised q k) :=
  inferInstanceAs (Decidable (q ≠ adc.mutex))

instance {t : Addr} {k : Kernel} : Decidable ((adcUsage idle adc).notifies t k) :=
  inferInstanceAs (Decidable (_ = _))

instance : DecidablePred (drivers u adc).free := fun _ => inferInstanceAs (Decidable (Aside _ _))

instance {r : Request} : Decidable ((drivers u adc).begins i r) := inferInstanceAs (Decidable (_ ≠ _))

instance : Decidable (Converting m i) := inferInstanceAs (Decidable (∃ j ∈ m.job i,3 ≤ j.pc ∧ j.pc ≤ 6))

end Script

def someQueues : Queues := ⟨0x40,0x20,by decide⟩

def startMachine (adcsra : Nat) : AdcMachine :=
  ⟨bootConfig (adcUsage 0x100 someQueues) [0x40] 0x500,⟨0,adcsra,0,0,0⟩,fun _ => none⟩

theorem startMachine_runs (adcsra : Nat) (may : AdcMachine → AdcMachine → Prop) :
    AdcRuns 0x100 someQueues may (startMachine adcsra) :=
  .init ⟨bootConfig_booted (by decide) fun q => by simp [adcUsage,someQueues],trivial,fun _ => rfl⟩

/-- Of the threads MAIN and A, A calls the converter and waits for the result. -/
def conversion : List (Event Cut Op Request) :=
  [.invoke (.bermudaThreadCreate 0x200 ['M','A','I','N'] 150),.run 40,
    .invoke (.bermudaThreadCreate 0x300 ['A'] 100),.run 40,.invoke .bermudaThreadYield,.run 80,
    .begin ⟨14,0⟩,.run 100]

theorem conversions_exclusive_one : ∃ m, Exclusive someQueues m ∧ Converting m 0x300 := by
  obtain ⟨m,run,converts⟩ := script_ends conversion (P := fun m => Converting m 0x300)
    (startMachine_runs 0x80 (Enabled someQueues)) Cut.interrupt (by decide +kernel)
  exact ⟨m,conversions_exclusive run,converts⟩

/-- MAIN calls the converter too, and its wait for the mutex ends by the time-out. -/
def overlap : List (Event Cut Op Request) :=
  conversion ++ [.begin ⟨15,1⟩,.run 200,.interrupt .tick,.invoke .bermudaThreadYield,.run 200]

/-- The result of the wait is not looked at, so both convert; and a disabled converter
keeps the mutex of a call that is over. -/
theorem conversions_overlap :
    (∃ m, AdcRuns 0x100 someQueues (fun _ _ => True) m ∧ Converting m 0x200 ∧ Converting m 0x300) ∧
    ∃ m, AdcRuns 0x100 someQueues (fun _ _ => True) m ∧ (m.job 0x300).isNone ∧
      0x300 ∈ m.kernel.state.owners 0x40 := by
  constructor
  · exact script_ends overlap (startMachine_runs 0x80 fun _ _ => True) Cut.interrupt
      (by decide +kernel)
  · exact script_ends conversion (startMachine_runs 0 fun _ _ => True) Cut.interrupt
      (by decide +kernel)

end BermudaOS.Dev.Adc
