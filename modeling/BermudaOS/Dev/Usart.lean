import BermudaOS.Dev.Drivers
import BermudaOS.Sys.SchedReader

/-! The receiving side of the USART of `dev/usart/busses/atmega-usart.c`. A thread asks
for one byte and waits in `rx_queue`, which the receive interrupt signals. -/
namespace BermudaOS.Dev.Usart
open Sys.VirtTimer Sys.Sched Lib.Chains Lib.Program Lib.Clients

/-- The fields of `USARTBUS` for receiving, the control register and the memory that
buffers are in. The last field is a record for the reader of the byte that the handler
stored, which no code reads. -/
structure Bus where
  rx : Addr
  rxLen : Nat
  rxIndex : Nat
  ucsrb : Nat
  memory : Addr → UInt8
  stored : Option UInt8

/-- Who reads, and where the threads wait. Any other queue may be a lock. -/
structure Receiver where
  idle : Addr
  reader : Addr
  rxQueue : Addr
  lock : Addr → Prop
  other : reader ≠ idle
  unlocked : ¬lock rxQueue

def rxen0 : Nat := 4

def rxcie0 : Nat := 7

inductive IoctlMode
  | usartRxEnable
  | usartRxStop
  | usartRxData (arg : Addr)

/-- The receive modes of `BermudaUsartIoCtl`, where the data register holds `udr`. -/
def bermudaUsartIoCtl (udr : UInt8) (d : Bus) : IoctlMode → Bus
  | .usartRxEnable => {d with ucsrb := d.ucsrb ||| (1 <<< rxcie0) ||| (1 <<< rxen0)}
  | .usartRxStop => {d with ucsrb := d.ucsrb &&& (2^8 - 1 - ((1 <<< rxcie0) ||| (1 <<< rxen0)))}
  | .usartRxData arg => {d with memory := Function.update d.memory arg udr,stored := some udr}

abbrev UsartCode := Code Bus Op Int

/-- `BermudaUsartReadByte`, whose variable `c` is at this address of its stack. -/
def bermudaUsartReadByte (usart : Receiver) (c : Addr) : UsartCode UInt8 := do
  Code.write fun d => {d with memory := Function.update d.memory c 0}
  Code.write fun d => {d with rxLen := 1,stored := none}
  Code.write fun d => {d with rx := c}
  Code.write fun d => {d with rxIndex := 0}
  Code.write fun d => bermudaUsartIoCtl 0 d .usartRxEnable
  let _ ← Code.ask (.bermudaEventWaitNext (some usart.rxQueue) 0)
  Code.write fun d => bermudaUsartIoCtl 0 d .usartRxStop
  Code.read fun d => d.memory c

/-- The receive part of `BermudaUsartISR`. -/
def bermudaUsartISR (usart : Receiver) (udr : UInt8) (k : Kernel) (d : Bus) : Kernel × Bus :=
  if d.rxLen = 0 then (k,d)
  else if d.rxIndex + 1 < d.rxLen then
    (k,{bermudaUsartIoCtl udr d (.usartRxData (d.rx + Fin.ofNat _ d.rxIndex)) with rxIndex := d.rxIndex + 1})
  else
    let d := if d.rxIndex < d.rxLen then bermudaUsartIoCtl udr d (.usartRxData (d.rx + Fin.ofNat _ d.rxIndex)) else d
    (bermudaEventSignalFromISR usart.rxQueue k,{d with rxLen := 0})

def Receiver.usage (usart : Receiver) : Usage where
  idle := usart.idle
  lock := usart.lock
  raised q _ := ¬usart.lock q
  notifies t k := (k.thread t).state = .waiting
  apart _ _ := id

/-- The interrupts: of the rest of the system, and the receive interrupt while it is
enabled. -/
inductive Interrupts (usart : Receiver) : Kernel × Bus → Kernel × Bus → Prop
  | event {k : Kernel} {d : Bus} (q : Addr) (unlocked : ¬usart.lock q) (other : q ≠ usart.rxQueue) :
      Interrupts usart (k,d) (bermudaEventSignalFromISR q k,d)
  | tick {k : Kernel} {d : Bus} :
      Interrupts usart (k,d) ({k with bermudaSystemTick := (k.bermudaSystemTick + 1) % 2^32},d)
  | heap {k : Kernel} {d : Bus} (a : Addr) : Interrupts usart (k,d) ({k with heapNext := a},d)
  | receive {k : Kernel} {d : Bus} (udr : UInt8) (enabled : d.ucsrb.testBit rxcie0 = true) :
      Interrupts usart (k,d) (bermudaUsartISR usart udr k d)

def drivers (usart : Receiver) : Drivers Kernel Addr Op Int Bus Addr UInt8 where
  body _ c := bermudaUsartReadByte usart c
  begins i _ := i = usart.reader
  interrupt := Interrupts usart
  free := Aside usart.rxQueue

abbrev UsartMachine := Machine Kernel Addr Op Int Bus Addr UInt8

/-- Receiving is not enabled after `BermudaUsart0Init`. -/
abbrev UsartRuns (usart : Receiver) (may : UsartMachine → UsartMachine → Prop) : UsartMachine → Prop :=
  Runs (scheduler usart.usage) (drivers usart) may
    (Started usart.usage fun d => d.rxLen = 0 ∧ d.ucsrb.testBit rxcie0 = false)

/-- The places in the code of a read. -/
inductive Stage
  | clear
  | length
  | pointer
  | index
  | enable
  | wait
  | stop
  | read
  | done (byte : UInt8)

section Code

variable (usart : Receiver) (c : Addr)

def fromRead : UsartCode UInt8 := Code.read fun d => d.memory c

def fromStop : UsartCode UInt8 := do
  Code.write fun d => bermudaUsartIoCtl 0 d .usartRxStop
  fromRead c

def fromWait : UsartCode UInt8 := do
  let _ ← Code.ask (.bermudaEventWaitNext (some usart.rxQueue) 0)
  fromStop c

def fromEnable : UsartCode UInt8 := do
  Code.write fun d => bermudaUsartIoCtl 0 d .usartRxEnable
  fromWait usart c

def fromIndex : UsartCode UInt8 := do
  Code.write fun d => {d with rxIndex := 0}
  fromEnable usart c

def fromPointer : UsartCode UInt8 := do
  Code.write fun d => {d with rx := c}
  fromIndex usart c

def fromLength : UsartCode UInt8 := do
  Code.write fun d => {d with rxLen := 1,stored := none}
  fromPointer usart c

/-- What is left to do of a read. -/
def Stage.code : Stage → UsartCode UInt8
  | .clear => bermudaUsartReadByte usart c
  | .length => fromLength usart c
  | .pointer => fromPointer usart c
  | .index => fromIndex usart c
  | .enable => fromEnable usart c
  | .wait => fromWait usart c
  | .stop => fromStop c
  | .read => fromRead c
  | .done byte => return byte

variable {usart c}

theorem code_call {st : Stage} {op : Op} {next : Int → UsartCode UInt8} (code : st.code usart c = .call op next) :
    st = .wait ∧ op = .bermudaEventWaitNext (some usart.rxQueue) 0 ∧ ∀ x, next x = Stage.stop.code usart c := by
  cases st with
  | wait =>
    obtain ⟨rfl,rfl⟩ := Code.call.inj code
    exact ⟨rfl,rfl,fun _ => rfl⟩
  | _ => cases code

theorem code_ret {st : Stage} {v : UInt8} (code : st.code usart c = .ret v) : st = .done v := by
  cases st with
  | done w => exact congrArg Stage.done (Code.ret.inj code)
  | _ => cases code

/-- The state of the bus at the stage. The byte is there if it is no longer asked for. -/
def Stage.bus (c : Addr) (d : Bus) : Stage → Prop
  | .clear | .length => d.ucsrb.testBit rxcie0 = false
  | .pointer => d.ucsrb.testBit rxcie0 = false ∧ d.rxLen = 1 ∧ d.stored = none
  | .index => d.ucsrb.testBit rxcie0 = false ∧ d.rxLen = 1 ∧ d.stored = none ∧ d.rx = c
  | .enable => d.ucsrb.testBit rxcie0 = false ∧ d.rxLen = 1 ∧ d.stored = none ∧ d.rx = c ∧ d.rxIndex = 0
  | .wait | .stop => d.rxLen = 1 ∧ d.stored = none ∧ d.rx = c ∧ d.rxIndex = 0 ∨
      d.rxLen = 0 ∧ d.stored = some (d.memory c)
  | .read => d.ucsrb.testBit rxcie0 = false ∧ ∀ b, d.stored = some b → d.memory c = b
  | .done byte => d.ucsrb.testBit rxcie0 = false ∧ ∀ b, d.stored = some b → byte = b

end Code

variable {usart : Receiver} {m n : UsartMachine} {c : Addr} {st : Stage} {d : Bus}

/-- The reader is before the first action of its wait, by which an old signal is
discarded. -/
def Early (usart : Receiver) (m : UsartMachine) : Prop :=
  ∃ j next, m.job usart.reader = some j ∧ j.rest = .call (.bermudaEventWaitNext (some usart.rxQueue) 0) next ∧
    ∀ b, m.kernel.call usart.reader = some b → b.rest = body b.op

/-- The byte does not arrive early. -/
def Timely (usart : Receiver) (m n : UsartMachine) : Prop := Early usart m → m.dev.rxLen ≠ 0 → n.dev.rxLen ≠ 0

/-- A read by thread `i`, whose byte has not arrived when it begins to wait. -/
def Serves (usart : Receiver) (m : UsartMachine) (i : Addr) (j : Job Bus Op Int Addr UInt8) : Prop :=
  i = usart.reader ∧ ∃ st, j.rest = Stage.code usart j.op st ∧ st.bus j.op m.dev ∧
    (st = .wait → m.kernel.call i = none → m.dev.rxLen ≠ 0)

/-- What is kept by the threads and the receive interrupt. -/
structure Serving (usart : Receiver) (m : UsartMachine) : Prop where
  jobs : ∀ i j, m.job i = some j → Serves usart m i j
  quiet : m.job usart.reader = none → m.dev.ucsrb.testBit rxcie0 = false
  reading : Reading usart.usage usart.rxQueue usart.reader (m.dev.rxLen = 0) m.kernel

theorem serving_only (matching : Matching (drivers usart) m) (serving : Serving usart m) :
    Only usart.rxQueue usart.reader m.kernel := by
  intro i b call
  cases job : m.job i with
  | none => exact .inl (matching.own i b call job)
  | some j =>
    obtain ⟨next,rest⟩ := matching.asked i b j call job
    obtain ⟨same,st,code,_⟩ := serving.jobs i j job
    obtain ⟨_,about,_⟩ := code_call (code.symm.trans rest)
    exact .inr ⟨same,0,about⟩

theorem serving_asks {op : Op} (serving : Serving usart m) (ask : m.Asks op) :
    m.running = usart.reader ∧ op = .bermudaEventWaitNext (some usart.rxQueue) 0 ∧ m.dev.rxLen ≠ 0 := by
  obtain ⟨above,k,entry,pc,next,job⟩ := ask
  obtain ⟨same,st,code,_,fresh⟩ := serving.jobs _ _ job
  obtain ⟨wait,about,_⟩ := code_call code.symm
  exact ⟨same,about,fresh wait above⟩

theorem asks_allowed {op : Op} (serving : Serving usart m) (ask : m.Asks op) :
    allowed usart.usage m.running op m.kernel.state := by
  obtain ⟨running,rfl,_⟩ := serving_asks serving ask
  refine ⟨running ▸ usart.other,fun o same => ?_⟩
  obtain rfl := Option.some.inj same
  exact usart.unlocked

theorem Interrupts.below {s t : Kernel × Bus} (irq : Interrupts usart s t) : t.1 = s.1 ∨ Irq usart.usage s.1 t.1 := by
  cases irq with
  | event q unlocked => exact .inr (.event q unlocked)
  | tick => exact .inr .tick
  | heap a => exact .inr (.heap a)
  | receive udr enabled =>
    unfold bermudaUsartISR
    split
    · exact .inl rfl
    · split
      · exact .inl rfl
      · exact .inr (.event usart.rxQueue usart.unlocked)

theorem usage_gentle (usart : Receiver) : Gentle usart.usage := by
  rintro t k (waits : (k.thread t).state = .waiting)
  simp [waits]

/-- The receive interrupt stores the byte that is asked for, once. -/
theorem isr_bus {udr : UInt8} {k : Kernel} (bus : st.bus c d) (enabled : d.ucsrb.testBit rxcie0 = true) :
    st.bus c (bermudaUsartISR usart udr k d).2 := by
  have waits (byte : d.rxLen = 1 ∧ d.stored = none ∧ d.rx = c ∧ d.rxIndex = 0 ∨
      d.rxLen = 0 ∧ d.stored = some (d.memory c)) :
      Stage.wait.bus c (bermudaUsartISR usart udr k d).2 := by
    rcases byte with ⟨one,_,rfl,first⟩ | ⟨zero,stored⟩
    · right
      simp [bermudaUsartISR,bermudaUsartIoCtl,one,first]
    · right
      simpa [bermudaUsartISR,zero] using stored
  have off (disabled : d.ucsrb.testBit rxcie0 = false) : st.bus c (bermudaUsartISR usart udr k d).2 :=
    absurd (enabled.symm.trans disabled) (by simp)
  cases st with
  | wait | stop => exact waits bus
  | clear | length => exact off bus
  | _ => exact off bus.1

theorem Interrupts.bus {s t : Kernel × Bus} (irq : Interrupts usart s t) :
    (∀ c st, Stage.bus c s.2 st → st.bus c t.2) ∧
      (s.2.ucsrb.testBit rxcie0 = false → t.2.ucsrb.testBit rxcie0 = false) := by
  cases irq with
  | receive udr enabled => exact ⟨fun c st bus => isr_bus bus enabled,fun off => absurd (enabled.symm.trans off) (by simp)⟩
  | _ => exact ⟨fun _ _ => id,id⟩

/-- The stage after an access to the bus. -/
def Stage.next (c : Addr) (d : Bus) : Stage → Stage
  | .clear => .length
  | .length => .pointer
  | .pointer => .index
  | .index => .enable
  | .enable => .wait
  | .stop => .read
  | .read => .done (d.memory c)
  | st => st

theorem enabled_stopped (n : Nat) :
    (n &&& (2^8 - 1 - ((1 <<< rxcie0) ||| (1 <<< rxen0)))).testBit rxcie0 = false := by
  rw [Nat.testBit_and]
  have mask : (2^8 - 1 - ((1 <<< rxcie0) ||| (1 <<< rxen0))).testBit rxcie0 = false := by decide
  rw [mask,Bool.and_false]

theorem code_act {update : Bus → Bus} {next : Bus → UsartCode UInt8} (code : st.code usart c = .act update next)
    (bus : st.bus c d) : next d = (st.next c d).code usart c ∧ (st.next c d).bus c (update d) ∧
      (st.next c d = .wait → (update d).rxLen ≠ 0) := by
  cases st with
  | wait | done => cases code
  | clear =>
    obtain ⟨rfl,rfl⟩ := Code.act.inj code
    exact ⟨rfl,bus,by simp [Stage.next]⟩
  | length =>
    obtain ⟨rfl,rfl⟩ := Code.act.inj code
    exact ⟨rfl,⟨bus,rfl,rfl⟩,by simp [Stage.next]⟩
  | pointer =>
    obtain ⟨rfl,rfl⟩ := Code.act.inj code
    obtain ⟨off,len,stored⟩ := bus
    exact ⟨rfl,⟨off,len,stored,rfl⟩,by simp [Stage.next]⟩
  | index =>
    obtain ⟨rfl,rfl⟩ := Code.act.inj code
    obtain ⟨off,len,stored,rx⟩ := bus
    exact ⟨rfl,⟨off,len,stored,rx,rfl⟩,by simp [Stage.next]⟩
  | enable =>
    obtain ⟨rfl,rfl⟩ := Code.act.inj code
    obtain ⟨_,len,stored,rx,index⟩ := bus
    refine ⟨rfl,.inl ⟨len,stored,rx,index⟩,fun _ => ?_⟩
    simp [bermudaUsartIoCtl,len]
  | stop =>
    obtain ⟨rfl,rfl⟩ := Code.act.inj code
    refine ⟨rfl,⟨enabled_stopped d.ucsrb,fun b stored => ?_⟩,by simp [Stage.next]⟩
    rcases bus with ⟨_,none,_⟩ | ⟨_,same⟩
    · exact absurd (none.symm.trans stored) (by simp)
    · exact Option.some.inj (same.symm.trans stored)
  | read =>
    obtain ⟨rfl,rfl⟩ := Code.act.inj code
    exact ⟨rfl,bus,by simp [Stage.next]⟩

theorem interrupt_reading {t : Kernel × Bus} (irq : Interrupts usart (m.kernel.state,m.dev) t)
    (reach : Reachable (scheduler usart.usage) (booted usart.usage) m.kernel)
    (only : Only usart.rxQueue usart.reader m.kernel) (serving : Serving usart m)
    (early : ∀ b, m.kernel.call usart.reader = some b → b.op.waits = some usart.rxQueue → b.rest = body b.op →
      m.dev.rxLen ≠ 0 → t.2.rxLen ≠ 0) :
    Reading usart.usage usart.rxQueue usart.reader (t.2.rxLen = 0) {m.kernel with state := t.1} := by
  have reading := serving.reading
  obtain ⟨L,R,here⟩ := good_inv (kernel_verified (usage_gentle usart)) (kernel_good (usage_gentle usart) reach)
  cases irq with
  | event q unlocked other =>
    have same := elsewhere_pending here other
    exact reading_irq reading ⟨.event q unlocked,same.mpr⟩ (fun _ _ _ _ => id) (fun pending => .inl (same.mp pending))
      id .inl
  | tick => exact reading_irq reading ⟨.tick,id⟩ (fun _ _ _ _ => id) .inl id .inl
  | heap a => exact reading_irq reading ⟨.heap a,id⟩ (fun _ _ _ _ => id) .inl id .inl
  | receive udr enabled =>
    unfold bermudaUsartISR at early ⊢
    split
    · exact reading
    · next len =>
      rw [if_neg len] at early
      split
      · next more => exact reading
      · next last =>
        rw [if_neg last] at early
        have mono := reading_counts (usage_gentle usart) reach only reading len
        refine reading_irq reading ⟨.event usart.rxQueue usart.unlocked,mono⟩ early (fun _ => .inr rfl) (fun _ => rfl)
          fun _ => .inr ?_
        by_cases pending : Pending usart.rxQueue m.kernel.state
        · exact mono pending
        · exact signal_pending pending

theorem Serves.kept {i : Addr} {j : Job Bus Op Int Addr UInt8} (serves : Serves usart m i j) (dev : n.dev = m.dev)
    (call : n.kernel.call i = none → m.kernel.call i = none) : Serves usart n i j := by
  obtain ⟨same,st,code,bus,fresh⟩ := serves
  refine ⟨same,st,code,dev ▸ bus,fun wait idle => ?_⟩
  rw [dev]
  exact fresh wait (call idle)

theorem serving_step (reach : Reachable (scheduler usart.usage) (booted usart.usage) m.kernel)
    (matching : Matching (drivers usart) m) (serving : Serving usart m)
    (step : Lib.Clients.Step (scheduler usart.usage) (drivers usart) m n) (timely : Timely usart m n) :
    Serving usart n := by
  have gentle := usage_gentle usart
  have only := serving_only matching serving
  obtain ⟨jobs,quiet,reading⟩ := id serving
  cases step with
  | @interrupt k d irq =>
    have early {j : Job Bus Op Int Addr UInt8} (job : m.job usart.reader = some j) (code : j.rest = Stage.code usart j.op .wait)
        (start : ∀ b, m.kernel.call usart.reader = some b → b.rest = body b.op) :
        m.dev.rxLen ≠ 0 → d.rxLen ≠ 0 := timely ⟨j,_,job,code,start⟩
    obtain ⟨bus,off⟩ := Interrupts.bus irq
    refine ⟨fun i j job => ?_,fun free => off (quiet free),interrupt_reading (t := (k,d)) irq reach only serving ?_⟩
    · obtain ⟨rfl,st,code,now,fresh⟩ := jobs i j job
      refine ⟨rfl,st,code,bus _ _ now,fun wait idle => ?_⟩
      subst wait
      refine early job code (fun b call => ?_) (fresh rfl idle)
      exact absurd (call.symm.trans idle) (by simp)
    · intro b call wait start
      cases job : m.job usart.reader with
      | none => exact absurd wait (matching.own _ b call job).1
      | some j =>
        obtain ⟨next,rest⟩ := matching.asked _ b j call job
        obtain ⟨_,st,code,_⟩ := jobs _ j job
        obtain ⟨rfl,_⟩ := code_call (code.symm.trans rest)
        refine early job code fun b' call' => ?_
        obtain rfl := Option.some.inj (call.symm.trans call')
        exact start
  | @inside b busy onward =>
    refine ⟨fun i j job => (jobs i j job).kept rfl fun idle => ?_,quiet,reading_advance gentle reach only reading⟩
    by_cases same : i = m.running
    · subst same
      obtain ⟨a,still,_⟩ := advance_still (S := scheduler usart.usage) busy onward
      exact absurd (still.symm.trans idle) (by simp)
    · exact (advance_other same).symm.trans idle
  | @resume k entry pc op next below r returns job =>
    have above : m.job m.running ≠ none := by simp [job]
    refine ⟨fun i j job' => ?_,fun free => ?_,reading_advance gentle reach only reading⟩
    · by_cases same : i = m.running
      · subst same
        obtain rfl := Option.some.inj ((m.setJob_self _).symm.trans job')
        obtain ⟨same,st,code,bus,_⟩ := jobs _ _ job
        obtain ⟨rfl,_,onward⟩ := code_call code.symm
        exact ⟨same,.stop,onward r,bus,by simp⟩
      · refine (jobs i j ((m.setJob_other _ same).symm.trans job')).kept rfl fun idle => ?_
        exact (advance_other same).symm.trans idle
    · rw [← (jobs _ _ job).1] at free
      cases (m.setJob_self _).symm.trans free
  | @leave below r returns free =>
    refine ⟨fun i j job => (jobs i j job).kept rfl fun idle => ?_,quiet,reading_advance gentle reach only reading⟩
    have other : i ≠ m.running := by
      rintro rfl
      cases free.symm.trans job
    exact (advance_other other).symm.trans idle
  | @invoke op above free own allowed =>
    refine ⟨fun i j job => (jobs i j job).kept rfl fun idle => ?_,quiet,?_⟩
    · have other : i ≠ m.running := by
        rintro rfl
        cases free.symm.trans job
      exact (Function.update_of_ne other _ _).symm.trans idle
    · exact reading_invoke gentle reach only above allowed (.inl own) (fun wait => absurd wait own.1) reading
  | @begin k above free begins =>
    have running : m.running = usart.reader := begins
    refine ⟨fun i j job => ?_,fun free => ?_,reading⟩
    · by_cases same : i = m.running
      · subst same
        obtain rfl := Option.some.inj ((m.setJob_self _).symm.trans job)
        exact ⟨running,.clear,rfl,quiet (running ▸ free),by simp⟩
      · exact (jobs i j ((m.setJob_other _ same).symm.trans job)).kept rfl id
    · rw [← running] at free
      cases (m.setJob_self _).symm.trans free
  | @call k entry pc op next above job =>
    obtain ⟨running,st,code,bus,fresh⟩ := jobs _ _ job
    obtain ⟨rfl,about,_⟩ := code_call code.symm
    refine ⟨fun i j job' => (jobs i j job').kept rfl fun idle => ?_,quiet,?_⟩
    · by_cases same : i = m.running
      · subst same
        exact above
      · exact (Function.update_of_ne same _ _).symm.trans idle
    · have allowed := asks_allowed serving ⟨above,_,_,_,_,job⟩
      exact reading_invoke gentle reach only above allowed (.inr ⟨running,0,about⟩) (fun _ => fresh rfl above) reading
  | @act k entry pc update next above job =>
    obtain ⟨running,st,code,bus,fresh⟩ := jobs _ _ job
    obtain ⟨onward,bus,fresh⟩ := code_act code.symm bus
    refine ⟨fun i j job' => ?_,fun free => ?_,?_⟩
    · by_cases same : i = m.running
      · subst same
        obtain rfl := Option.some.inj ((m.setJob_self _).symm.trans job')
        exact ⟨running,st.next k m.dev,onward,bus,fun wait _ => fresh wait⟩
      · exact absurd ((jobs i j ((m.setJob_other _ same).symm.trans job')).1.trans running.symm) same
    · rw [← running] at free
      cases (m.setJob_self _).symm.trans free
    · refine reading_idle (fun b call => ?_) reading
      rw [← running] at call
      cases above.symm.trans call
  | @finish k entry pc v above job =>
    obtain ⟨running,st,code,bus,_⟩ := jobs _ _ job
    obtain rfl := code_ret code.symm
    refine ⟨fun i j job' => ?_,fun _ => bus.1,reading⟩
    by_cases same : i = m.running
    · subst same
      cases (m.setJob_self _).symm.trans job'
    · exact (jobs i j ((m.setJob_other _ same).symm.trans job')).kept rfl id

/-- The reader waits and nothing is on its way to wake it, though its byte has arrived. -/
structure Missed (usart : Receiver) (m : UsartMachine) : Prop where
  blocked : ∃ ws, Waiters m.kernel.state usart.rxQueue ws ∧ usart.reader ∈ ws
  arrived : m.dev.rxLen = 0
  lost : ¬Held usart.rxQueue m.kernel

structure Heard (usart : Receiver) (m : UsartMachine) : Prop where
  wakes : ¬Missed usart m
  returns : ∀ i j v, m.job i = some j → j.rest = .ret v → ∀ byte, m.dev.stored = some byte → v = byte

theorem waiters_joined {k : Kernel} {q x : Addr} {ws : List Addr} (waiters : Waiters k q ws) (inside : x ∈ ws) :
    Joined q k := by
  rcases waiters with ⟨_,rfl⟩ | ⟨busy,chain⟩
  · cases inside
  · refine ⟨fun empty => ?_,busy⟩
    rw [empty] at chain
    rw [chain_unique chain (show Chain k.next none [] from rfl)] at inside
    cases inside

/-- A byte that does not arrive before the reader has begun to wait is never missed. -/
theorem read_heard (run : UsartRuns usart (Timely usart) m) : Heard usart m := by
  have gentle := usage_gentle usart
  obtain ⟨reach,matching,serving⟩ := drivers_keep (P := Serving usart) (fun _ _ => Interrupts.below)
    (fun m start => by
      refine ⟨fun i j job => ?_,fun _ => start.dev.2,reading_start start.boot.2.2⟩
      cases (start.jobs i).symm.trans job)
    (fun m op _ serving ask => asks_allowed serving ask)
    (fun m n reach _ matching serving step timely => serving_step reach matching serving step timely) run
  refine ⟨?_,fun i j v job rest byte stored => ?_⟩
  · rintro ⟨⟨ws,waiters,inside⟩,arrived,lost⟩
    have joined := waiters_joined waiters inside
    obtain ⟨_,b,call,wait⟩ := joined_reader gentle reach (serving_only matching serving) waiters inside
    cases serving.reading.progress b call wait with
    | before _ _ _ out => exact out joined
    | entering _ _ word => exact lost (.inl (word.mpr arrived))
    | aside _ _ late => exact lost (late arrived joined)
  · obtain ⟨_,st,code,bus,_⟩ := serving.jobs i j job
    obtain rfl := code_ret (code.symm.trans rest)
    exact bus.2 byte stored

section Script

def receive (usart : Receiver) (udr : UInt8) (s : Kernel × Bus) : Option (Kernel × Bus) :=
  if s.2.ucsrb.testBit rxcie0 then some (bermudaUsartISR usart udr s.1 s.2) else none

theorem receive_interrupt (udr : UInt8) (s t : Kernel × Bus) (received : receive usart udr s = some t) :
    Interrupts usart s t := by
  unfold receive at received
  split at received
  · next enabled =>
    obtain rfl := Option.some.inj received
    exact .receive udr enabled
  · cases received

instance {i k : Addr} : Decidable ((drivers usart).begins i k) := inferInstanceAs (Decidable (_ = _))

instance : DecidablePred (drivers usart).free := fun _ => inferInstanceAs (Decidable (Aside _ _))

end Script

/-- No queue is a lock. -/
def someReceiver : Receiver := ⟨0x100,0x200,0x20,fun _ => False,by decide,id⟩

instance : DecidablePred someReceiver.usage.lock := fun _ => inferInstanceAs (Decidable False)

instance {q : Addr} {k : Kernel} : Decidable (someReceiver.usage.raised q k) := inferInstanceAs (Decidable (¬False))

instance {t : Addr} {k : Kernel} : Decidable (someReceiver.usage.notifies t k) := inferInstanceAs (Decidable (_ = _))

/-- The queue is signaled, or empty. -/
def startMachine (signals : List Addr) : UsartMachine :=
  ⟨bootConfig someReceiver.usage signals 0x500,⟨0,0,0,0,fun _ => 0,none⟩,fun _ => none⟩

theorem startMachine_runs (signals : List Addr) (may : UsartMachine → UsartMachine → Prop) :
    UsartRuns someReceiver may (startMachine signals) :=
  .init ⟨bootConfig_booted (by decide) fun _ => False.elim,⟨rfl,Nat.zero_testBit _⟩,fun _ => rfl⟩

/-- The thread of the reader begins to read. -/
def reading : List (Event UInt8 Op Addr) :=
  [.invoke (.bermudaThreadCreate 0x200 ['M'] 100),.run 40,.invoke .bermudaThreadYield,.run 80,.begin 0x300]

def signaledKernel : Kernel := (startMachine [0x20]).kernel.state

/-- The reader is not in its wait, or the next action there empties a signaled queue. -/
def discards (m : UsartMachine) : Bool :=
  match m.kernel.call someReceiver.reader with
  | some ⟨op,_,.step update _⟩ => op ≠ .bermudaEventWaitNext (some 0x20) 0 ∨
      (update signaledKernel).link (.event 0x20) = none
  | _ => true

theorem late_timely (late : n.dev.rxLen = 0 → m.dev.rxLen ≠ 0 → discards m = false) :
    Timely someReceiver m n := by
  rintro ⟨j,next,job,rest,start⟩ asked arrived
  have beyond := late arrived asked
  unfold discards at beyond
  split at beyond
  · next op entry update onward busy =>
    obtain ⟨same,linked⟩ := not_or.mp (of_decide_eq_false beyond)
    obtain rfl := not_not.mp same
    have first := start _ busy
    change _ = Prog.step _ _ at first
    obtain ⟨rfl,_⟩ := Prog.step.inj first
    exact linked rfl
  · cases beyond

/-- The byte arrives while the reader waits, and is what the call returns. -/
theorem read_heard_one : ∃ m, Heard someReceiver m ∧ ∃ j, m.job 0x200 = some j ∧ j.rest = .ret 0x41 := by
  obtain ⟨m,run,result⟩ := script_ends
    (reading ++ [.run 55,.interrupt 0x41,.invoke .bermudaThreadYield,.run 28])
    (P := fun m => (m.job 0x200).bind (fun j => j.rest.result) = some 0x41)
    (startMachine_runs [0x20] fun m n => n.dev.rxLen = 0 → m.dev.rxLen ≠ 0 → discards m = false)
    receive_interrupt (by decide +kernel)
  obtain ⟨j,job,byte⟩ := Option.bind_eq_some_iff.mp result
  exact ⟨m,read_heard (runs_mono run fun _ _ => late_timely),j,job,Code.result_some byte⟩

/-- The interrupt comes when the reader has enabled it and not yet called. -/
def early : List (Event UInt8 Op Addr) := reading ++ [.run 5,.interrupt 0x41,.run 60]

theorem read_missed : ∃ m, UsartRuns someReceiver (fun _ _ => True) m ∧ Missed someReceiver m := by
  obtain ⟨m,run,link,last,count,arrived,idle⟩ := script_ends early
    (P := fun m => m.kernel.state.link (.event 0x20) = some 0x200 ∧ m.kernel.state.next 0x200 = none ∧
      (m.kernel.state.thread 0x200).ec = 0 ∧ m.dev.rxLen = 0 ∧ (m.kernel.call m.kernel.running).isNone)
    (startMachine_runs [0x20] fun _ _ => True) receive_interrupt (by decide +kernel)
  have busy : m.kernel.state.link (.event 0x20) ≠ signaled := by
    rw [link]
    decide
  refine ⟨m,run,⟨[0x200],.inr ⟨busy,link,last⟩,List.mem_singleton_self _⟩,arrived,?_⟩
  rintro ((signal | ⟨t,first,events⟩) | ⟨b,call,_⟩)
  · exact busy signal
  · obtain rfl := Option.some.inj (link.symm.trans first)
    exact events count
  · rw [call] at idle
    cases idle

end BermudaOS.Dev.Usart
