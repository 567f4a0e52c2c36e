import BermudaOS.Dev.AtmegaI2c

/-! A master transfer of the TWI hardware to slaves that acknowledge everything: the handler
and the hardware take turns until the hardware has nothing to report. -/
namespace BermudaOS.Dev.AtmegaI2c
open Lib.Cells I2cMsg

inductive Event where
  | start
  | address (byte : BitVec 8)
  | sent (byte : BitVec 8)
  | received (byte : BitVec 8) (acked : Bool)
  | stop
  | signal (queue : Queue)
  deriving DecidableEq

structure Link (Msg : Type) where
  i2c : I2c Msg
  /-- The status that the hardware reports next. -/
  status : Option Nat
  arrived : Nat
  trace : List Event

variable {Msg : Type}

/-- What the hardware does about the registers that the handler of a status leaves. The slaves
send `incoming`; bit 0 of the address asks for it. -/
def reaction (incoming : Nat → BitVec 8) (status : Nat) (s : I2c Msg) (arrived : Nat) (trace : List Event) : Link Msg :=
  if ¬ s.twcr.getLsbD 7 then ⟨s,none,arrived,trace⟩
  else if s.twcr.getLsbD 5 then ⟨s,some 0x10,arrived,trace ++ [.start]⟩
  else if s.twcr.getLsbD 4 then ⟨{s with twcr := s.twcr &&& ~~~TWSTO},none,arrived,trace ++ [.stop]⟩
  else match status with
    | 0x08 | 0x10 => ⟨s,some (if s.twdr.getLsbD 0 then 0x40 else 0x18),arrived,trace ++ [.address s.twdr]⟩
    | 0x18 | 0x28 => ⟨s,some 0x28,arrived,trace ++ [.sent s.twdr]⟩
    | 0x40 | 0x50 => ⟨{s with twdr := incoming arrived},some (if s.twcr.getLsbD 6 then 0x50 else 0x58),arrived + 1,
        trace ++ [.received (incoming arrived) (s.twcr.getLsbD 6)]⟩
    | _ => ⟨s,none,arrived,trace⟩

section Transfer

variable (message : Message) (incoming : Nat → BitVec 8) (arrived : Nat) (memory : Nat → BitVec 8)

/-- The message asks its slave for bytes: the core sets this bit of the address of every message that is not
to be transmitted. -/
def Message.reads (message : Message) : Bool := message.addr.getLsbD 0

/-- The bytes on the bus for a message that is received; without a buffer there is still one. -/
def Message.wanted (message : Message) : Nat := max 1 message.length

/-- The messages on the bus. -/
def body : List Event :=
  if message.reads then
    (List.range' 0 message.wanted).map fun k => .received (incoming (arrived + k)) (k + 1 < message.length)
  else (List.range' message.buff message.length).map fun a => .sent (memory a)

def consumed : Nat := if message.reads then arrived + message.wanted else arrived

/-- The first `n` bytes that arrive are in the buffer. -/
def stored (n : Nat) : Nat → BitVec 8 := fun a =>
  if message.buff ≤ a ∧ a < message.buff + n then incoming (arrived + (a - message.buff)) else memory a

/-- The memory after the message. -/
def kept : Nat → BitVec 8 := if message.reads then stored message incoming arrived memory message.length else memory

end Transfer

/-- The events of a transfer of messages, one after the other. -/
def conversation (incoming : Nat → BitVec 8) : List Message → Nat → (Nat → BitVec 8) → List Event
  | [],_,_ => []
  | m::ms,arrived,memory => .start::.address (m.addr.setWidth 8)::(body m incoming arrived memory ++
      conversation incoming ms (consumed m arrived) (kept m incoming arrived memory))

/-- The memory after a transfer. -/
def delivered (incoming : Nat → BitVec 8) : List Message → Nat → (Nat → BitVec 8) → Nat → BitVec 8
  | [],_,memory => memory
  | m::ms,arrived,memory => delivered incoming ms (consumed m arrived) (kept m incoming arrived memory)

variable [DecidableEq Msg]

/-- An interrupt, when there is one. -/
def cycle (nullAddr : Stray) (incoming : Nat → BitVec 8) (link : Link Msg) : Link Msg :=
  match link.status with
  | none => link
  | some status =>
    let s := twiStc nullAddr status link.i2c
    let after := reaction incoming status s link.arrived link.trace
    {after with trace := after.trace ++ (s.signals.drop link.i2c.signals.length).map .signal}

/-- A message that has not been transferred, of a master or of a slave. -/
def unsent (s : I2c Msg) (master : Bool) (msg : Msg) : Bool :=
  i2cMsgIsMaster s (some msg) = master ∧ i2cMsgFeatures s (some msg) &&& I2C_MSG_DONE_FLAG = 0

section Vector

variable {s : I2c Msg} {xs : List Msg}

omit [DecidableEq Msg] in
theorem vectorGet_holds (holds : Holds s.msgVector xs) (i : Nat) : vectorGet s i = xs[i]? := by
  obtain ⟨⟨f,sound,filled⟩,length,within⟩ := holds
  have data := sound.data
  by_cases inside : i < xs.length
  · have entry : s.msgVector.entry i = some xs[i] := (entry_sound sound).trans (filled_get filled inside)
    simp [vectorGet,i2cVectorGet,data,length,inside,entry,Pointer.of]
  · simp [vectorGet,i2cVectorGet,data,length,inside]

omit [DecidableEq Msg] in
theorem firstWalk_holds (holds : Holds s.msgVector xs) (master : Bool) (n i : Nat) (rest : i + n = xs.length) :
    (firstWalk s master n i).bind (vectorGet s) = (xs.drop i).find? (unsent s master) := by
  induction n generalizing i with
  | zero =>
    rw [List.drop_eq_nil_of_le (by omega)]
    rfl
  | succ n ih =>
    have inside : i < xs.length := by omega
    have there : vectorGet s i = some xs[i] := by rw [vectorGet_holds holds,List.getElem?_eq_getElem inside]
    rw [firstWalk,List.drop_eq_getElem_cons inside,List.find?_cons,← ih (i + 1) (by omega)]
    rw [there]
    unfold unsent
    split
    · rename_i found
      simp only [found]
      exact there
    · rename_i other
      simp only [other,decide_false]

omit [DecidableEq Msg] in
theorem updateFromIsr_holds (holds : Holds s.msgVector xs) : atmegaI2cUpdateFromIsr s =
    {s with masterMsg := xs.find? (unsent s true),slaveMsg := xs.find? (unsent s false)} := by
  have length := holds.length
  have found (master : Bool) := firstWalk_holds holds master s.msgVector.length 0 (by omega)
  simp only [List.drop_zero] at found
  have later : (firstWalk {s with masterMsg := xs.find? (unsent s true)} false s.msgVector.length 0).bind
      (vectorGet {s with masterMsg := xs.find? (unsent s true)}) = xs.find? (unsent s false) := by
    rw [firstWalk_holds (s := {s with masterMsg := xs.find? (unsent s true)}) holds false _ 0 (by simpa using length)]
    rfl
  unfold atmegaI2cUpdateFromIsr i2cFirstMasterMsg i2cFirstSlaveMsg
  rw [found true]
  dsimp only
  rw [later]

end Vector

/-- Neither a start nor a stop condition is asked for. -/
structure Calm (s : I2c Msg) : Prop where
  start : s.twcr.getLsbD 5 = false
  stop : s.twcr.getLsbD 4 = false

section Bits

variable (reg : BitVec 8)

theorem ioctlReg_acknowledge (ack : Bool) :
    (ioctlReg reg (if ack then .I2C_ACK else .I2C_NACK)).getLsbD 7 = true ∧
      (ioctlReg reg (if ack then .I2C_ACK else .I2C_NACK)).getLsbD 6 = ack ∧
      (ioctlReg reg (if ack then .I2C_ACK else .I2C_NACK)).getLsbD 5 = reg.getLsbD 5 ∧
      (ioctlReg reg (if ack then .I2C_ACK else .I2C_NACK)).getLsbD 4 = reg.getLsbD 4 := by
  cases ack <;> simp [ioctlReg,TWINT,TWEA,TWEN,TWIE]

theorem ioctlReg_start : (ioctlReg reg .I2C_START_ACK).getLsbD 7 = true ∧ (ioctlReg reg .I2C_START_ACK).getLsbD 5 = true := by
  simp [ioctlReg,TWINT,TWEA,TWEN,TWIE,TWSTA]

theorem ioctlReg_stop (cfg : Ctrl) (stops : cfg = .I2C_STOP_ACK ∨ cfg = .I2C_STOP_NACK) : (ioctlReg reg cfg).getLsbD 7 = true ∧
    (ioctlReg reg cfg).getLsbD 5 = reg.getLsbD 5 ∧ (ioctlReg reg cfg).getLsbD 4 = true := by
  obtain rfl | rfl := stops <;> simp [ioctlReg,TWINT,TWEA,TWEN,TWIE,TWSTO]

theorem startReg : (TWEN ||| TWIE ||| (reg &&& TWEA) ||| TWINT).getLsbD 7 = true ∧
    (TWEN ||| TWIE ||| (reg &&& TWEA) ||| TWINT).getLsbD 5 = false ∧
    (TWEN ||| TWIE ||| (reg &&& TWEA) ||| TWINT).getLsbD 4 = false := by
  simp [TWINT,TWEA,TWEN,TWIE]

end Bits

/-- The message on the bus. `NULL` is one without a buffer. -/
def onBus (nullAddr : Stray) (s : I2c Msg) : Message := s.masterMsg.elim ⟨0,0,nullAddr.setWidth 16,0⟩ s.message

/-- What no interrupt inside a message changes. -/
structure Same (s t : I2c Msg) : Prop where
  message : t.message = s.message
  msgVector : t.msgVector = s.msgVector
  masterMsg : t.masterMsg = s.masterMsg
  signals : t.signals = s.signals

omit [DecidableEq Msg] in
theorem Same.trans {s t u : I2c Msg} (first : Same s t) (second : Same t u) : Same s u :=
  ⟨second.message.trans first.message,second.msgVector.trans first.msgVector,
    second.masterMsg.trans first.masterMsg,second.signals.trans first.signals⟩

omit [DecidableEq Msg] in
theorem Same.onBus (nullAddr : Stray) {s t : I2c Msg} (same : Same s t) : onBus nullAddr t = onBus nullAddr s := by
  rw [AtmegaI2c.onBus,same.message,same.masterMsg,AtmegaI2c.onBus]

section Interrupts

variable {nullAddr : Stray} {incoming : Nat → BitVec 8} {s : I2c Msg} {status arrived : Nat} {trace : List Event}

theorem cycle_unsignalled (same : (twiStc nullAddr status s).signals = s.signals) :
    cycle nullAddr incoming ⟨s,some status,arrived,trace⟩ =
      reaction incoming status (twiStc nullAddr status s) arrived trace := by
  simp [cycle,same]

omit [DecidableEq Msg] in
theorem reaction_address (starts : status = 0x08 ∨ status = 0x10) (interrupt : s.twcr.getLsbD 7 = true) (calm : Calm s) :
    reaction incoming status s arrived trace =
      ⟨s,some (if s.twdr.getLsbD 0 then 0x40 else 0x18),arrived,trace ++ [.address s.twdr]⟩ := by
  obtain rfl | rfl := starts <;>
    simp only [reaction,interrupt,calm.start,calm.stop,not_true,Bool.false_eq_true,if_false]

omit [DecidableEq Msg] in
theorem reaction_sent (sends : status = 0x18 ∨ status = 0x28) (interrupt : s.twcr.getLsbD 7 = true) (calm : Calm s) :
    reaction incoming status s arrived trace = ⟨s,some 0x28,arrived,trace ++ [.sent s.twdr]⟩ := by
  obtain rfl | rfl := sends <;>
    simp only [reaction,interrupt,calm.start,calm.stop,not_true,Bool.false_eq_true,if_false]

omit [DecidableEq Msg] in
theorem reaction_received (receives : status = 0x40 ∨ status = 0x50) (interrupt : s.twcr.getLsbD 7 = true) (calm : Calm s) :
    reaction incoming status s arrived trace =
      ⟨{s with twdr := incoming arrived},some (if s.twcr.getLsbD 6 then 0x50 else 0x58),arrived + 1,
        trace ++ [.received (incoming arrived) (s.twcr.getLsbD 6)]⟩ := by
  obtain rfl | rfl := receives <;>
    simp only [reaction,interrupt,calm.start,calm.stop,not_true,Bool.false_eq_true,if_false]

omit [DecidableEq Msg] in
theorem reaction_start (interrupt : s.twcr.getLsbD 7 = true) (start : s.twcr.getLsbD 5 = true) :
    reaction incoming status s arrived trace = ⟨s,some 0x10,arrived,trace ++ [.start]⟩ := by
  simp only [reaction,interrupt,start,not_true,if_false,if_true]

omit [DecidableEq Msg] in
theorem reaction_stop (interrupt : s.twcr.getLsbD 7 = true) (start : s.twcr.getLsbD 5 = false) (stop : s.twcr.getLsbD 4 = true) :
    reaction incoming status s arrived trace = ⟨{s with twcr := s.twcr &&& ~~~TWSTO},none,arrived,trace ++ [.stop]⟩ := by
  simp only [reaction,interrupt,start,stop,not_true,Bool.false_eq_true,if_false,if_true]

omit [DecidableEq Msg] in
theorem masterStart_calm : Calm (masterStart nullAddr s s.twcr) := ⟨(startReg s.twcr).2.1,(startReg s.twcr).2.2⟩

variable (nullAddr incoming s arrived trace) in
theorem start_cycle (starts : status = 0x08 ∨ status = 0x10) :
    cycle nullAddr incoming ⟨s,some status,arrived,trace⟩ =
      ⟨masterStart nullAddr s s.twcr,some (if (onBus nullAddr s).reads then 0x40 else 0x18),arrived,
        trace ++ [.address ((onBus nullAddr s).addr.setWidth 8)]⟩ := by
  have handled : twiStc nullAddr status s = masterStart nullAddr s s.twcr := by obtain rfl | rfl := starts <;> rfl
  have interrupt : (masterStart nullAddr s s.twcr).twcr.getLsbD 7 = true := (startReg s.twcr).1
  have byte : (masterStart nullAddr s s.twcr).twdr = (onBus nullAddr s).addr.setWidth 8 := by
    unfold masterStart onBus
    cases s.masterMsg with
    | none => simp
    | some msg => rfl
  have same : (masterStart nullAddr s s.twcr).signals = s.signals := rfl
  rw [cycle_unsignalled (by rw [handled,same]),handled,reaction_address starts interrupt masterStart_calm,byte]
  simp [Message.reads]

omit [DecidableEq Msg] in
theorem onBus_some {i : Nat} (inside : i < (onBus nullAddr s).length) : ∃ msg, s.masterMsg = some msg ∧
    onBus nullAddr s = s.message msg := by
  unfold onBus at inside ⊢
  cases installed : s.masterMsg with
  | none => simp [installed] at inside
  | some msg => exact ⟨msg,rfl,rfl⟩

theorem twiStc_transmit (sends : status = 0x18 ∨ status = 0x28) : twiStc nullAddr status s = masterTransmit s := by
  obtain rfl | rfl := sends <;> rfl

variable (incoming arrived trace) in
theorem transmit_cycle (sends : status = 0x18 ∨ status = 0x28) (calm : Calm s)
    (inside : s.bufferIndex < (onBus nullAddr s).length) (word : (onBus nullAddr s).length < 2^16) :
    ∃ t, cycle nullAddr incoming ⟨s,some status,arrived,trace⟩ =
        ⟨t,some 0x28,arrived,trace ++ [.sent (s.memory ((onBus nullAddr s).buff + s.bufferIndex))]⟩ ∧
      Same s t ∧ Calm t ∧ t.memory = s.memory ∧ t.bufferIndex = s.bufferIndex + 1 := by
  obtain ⟨msg,installed,onBus⟩ := onBus_some inside
  rw [onBus] at inside word ⊢
  have handled : twiStc nullAddr status s = ctrl (s.load msg).next .I2C_ACK := by
    rw [twiStc_transmit sends]
    simp only [masterTransmit,installed,inside,if_true]
  obtain ⟨bit,_,start,stop⟩ := ioctlReg_acknowledge s.twcr true
  have interrupt : (ctrl (s.load msg).next .I2C_ACK).twcr.getLsbD 7 = true := bit
  have later : Calm (ctrl (s.load msg).next .I2C_ACK) := ⟨start.trans calm.start,stop.trans calm.stop⟩
  have same : (ctrl (s.load msg).next .I2C_ACK).signals = s.signals := rfl
  have index : size (s.bufferIndex + 1) = s.bufferIndex + 1 := Nat.mod_eq_of_lt (by omega)
  refine ⟨ctrl (s.load msg).next .I2C_ACK,?_,⟨rfl,rfl,rfl,rfl⟩,later,rfl,index⟩
  rw [cycle_unsignalled (by rw [handled,same]),handled,reaction_sent sends interrupt later]
  rfl

end Interrupts

/-- The hardware goes from one link to the other. -/
def Leads (nullAddr : Stray) (incoming : Nat → BitVec 8) (a b : Link Msg) : Prop :=
  ∃ n, (cycle nullAddr incoming)^[n] a = b

section Phases

variable {nullAddr : Stray} {incoming : Nat → BitVec 8} {s : I2c Msg} {status arrived : Nat} {trace : List Event}
  {a b c : Link Msg}

theorem Leads.refl (a : Link Msg) : Leads nullAddr incoming a a := ⟨0,rfl⟩

theorem Leads.trans (first : Leads nullAddr incoming a b) (second : Leads nullAddr incoming b c) : Leads nullAddr incoming a c := by
  obtain ⟨n,rfl⟩ := first
  obtain ⟨m,rfl⟩ := second
  exact ⟨m + n,Function.iterate_add_apply ..⟩

theorem Leads.cycle (once : AtmegaI2c.cycle nullAddr incoming a = b) (later : Leads nullAddr incoming b c) :
    Leads nullAddr incoming a c := Leads.trans ⟨1,once⟩ later

variable (incoming arrived trace) in
/-- The bytes of a message, from the place of the buffer index on. -/
theorem transmit_run (n : Nat) (sends : status = 0x18 ∨ status = 0x28) (calm : Calm s)
    (rest : s.bufferIndex + n = (onBus nullAddr s).length) (word : (onBus nullAddr s).length < 2^16) :
    ∃ t last, Leads nullAddr incoming ⟨s,some status,arrived,trace⟩ ⟨t,some last,arrived,
        trace ++ (List.range' ((onBus nullAddr s).buff + s.bufferIndex) n).map fun a => .sent (s.memory a)⟩ ∧
      (last = 0x18 ∨ last = 0x28) ∧ Same s t ∧ Calm t ∧ t.memory = s.memory ∧
      t.bufferIndex = (onBus nullAddr s).length := by
  induction n generalizing s status trace with
  | zero =>
    refine ⟨s,status,?_,sends,⟨rfl,rfl,rfl,rfl⟩,calm,rfl,rest⟩
    simpa using Leads.refl _
  | succ n ih =>
    obtain ⟨t,cycled,same,calm',memory,index⟩ := transmit_cycle incoming arrived trace
      sends calm (show s.bufferIndex < (onBus nullAddr s).length by omega) word
    have record := same.onBus nullAddr
    obtain ⟨u,last,led,lasts,same',calm₂,memory',index'⟩ := ih
      (trace ++ [.sent (s.memory ((onBus nullAddr s).buff + s.bufferIndex))]) (.inr rfl) calm'
      (by rw [record]; omega) (by rwa [record])
    rw [record,memory,index,List.append_assoc] at led
    exact ⟨u,last,.cycle cycled led,lasts,same.trans same',calm₂,memory'.trans memory,index'.trans (congrArg _ record)⟩

omit [DecidableEq Msg] in
theorem masterReceive_onBus (nullAddr : Stray) (s : I2c Msg) : masterReceive s =
    ctrl s (if decide (size (s.bufferIndex + 1) < (onBus nullAddr s).length) then .I2C_ACK else .I2C_NACK) := by
  unfold masterReceive onBus
  cases s.masterMsg with
  | none => rfl
  | some msg => by_cases more : size (s.bufferIndex + 1) < (s.message msg).length <;> simp [more]

/-- A byte arrives. -/
structure Arrives (nullAddr : Stray) (incoming : Nat → BitVec 8) (arrived : Nat) (s t : I2c Msg) : Prop where
  same : Same s t
  calm : Calm t
  memory : t.memory = s.memory
  bufferIndex : t.bufferIndex = s.bufferIndex
  twdr : t.twdr = incoming arrived

variable (nullAddr incoming arrived trace) in
omit [DecidableEq Msg] in
theorem receive_reaction (receives : status = 0x40 ∨ status = 0x50) (calm : Calm s) (word : s.bufferIndex + 1 < 2^16) :
    ∃ t, reaction incoming status (masterReceive s) arrived trace =
        ⟨t,some (if s.bufferIndex + 1 < (onBus nullAddr s).length then 0x50 else 0x58),arrived + 1,
          trace ++ [.received (incoming arrived) (s.bufferIndex + 1 < (onBus nullAddr s).length)]⟩ ∧
      Arrives nullAddr incoming arrived s t := by
  have index : size (s.bufferIndex + 1) = s.bufferIndex + 1 := Nat.mod_eq_of_lt word
  rw [masterReceive_onBus nullAddr,index]
  generalize more : decide (s.bufferIndex + 1 < (onBus nullAddr s).length) = ack
  obtain ⟨bit,acks,start,stop⟩ := ioctlReg_acknowledge s.twcr ack
  generalize cfg : (if ack then Ctrl.I2C_ACK else Ctrl.I2C_NACK) = reply at bit acks start stop
  have later : Calm (ctrl s reply) := ⟨start.trans calm.start,stop.trans calm.stop⟩
  have interrupt : (ctrl s reply).twcr.getLsbD 7 = true := bit
  have acked : (ctrl s reply).twcr.getLsbD 6 = ack := acks
  refine ⟨{ctrl s reply with twdr := incoming arrived},?_,⟨rfl,rfl,rfl,rfl⟩,⟨later.start,later.stop⟩,rfl,rfl,rfl⟩
  rw [reaction_received receives interrupt later,acked]
  simp [← more]

omit [DecidableEq Msg] in
theorem stored_zero (m : Message) (incoming : Nat → BitVec 8) (arrived : Nat) (memory : Nat → BitVec 8) :
    stored m incoming arrived memory 0 = memory := by
  funext a
  exact if_neg (by omega)

theorem stored_succ (m : Message) (incoming : Nat → BitVec 8) (arrived : Nat) (memory : Nat → BitVec 8) (n : Nat) :
    Function.update (stored m incoming arrived memory n) (m.buff + n) (incoming (arrived + n)) =
      stored m incoming arrived memory (n + 1) := by
  ext1 a
  by_cases last : a = m.buff + n
  · subst last
    have own : m.buff + n - m.buff = n := by omega
    rw [Function.update_self,stored,if_pos (by omega),own]
  · rw [Function.update_of_ne last]
    by_cases inside : m.buff ≤ a ∧ a < m.buff + n
    · rw [stored,stored,if_pos inside,if_pos (by omega)]
    · rw [stored,stored,if_neg inside,if_neg (by omega)]

/-- The byte of the place of the buffer index has arrived, those before it are in the buffer. -/
structure Received (nullAddr : Stray) (incoming : Nat → BitVec 8) (arrived : Nat) (s t : I2c Msg) (i : Nat) : Prop where
  same : Same s t
  calm : Calm t
  bufferIndex : t.bufferIndex = i
  twdr : t.twdr = incoming (arrived + i)
  memory : t.memory = stored (onBus nullAddr s) incoming arrived s.memory i

omit [DecidableEq Msg] in
theorem masterReceived_store (nullAddr : Stray) (inside : s.bufferIndex < (onBus nullAddr s).length) :
    ∃ msg, s.masterMsg = some msg ∧ (s.message msg).buff = (onBus nullAddr s).buff ∧
      masterReceived s = masterReceive (s.store msg).next := by
  obtain ⟨msg,installed,record⟩ := onBus_some inside
  rw [record] at inside
  refine ⟨msg,installed,congrArg Message.buff record.symm,?_⟩
  simp only [masterReceived,installed,inside,if_true]

variable (trace) in
theorem receive_cycle {t : I2c Msg} {i k : Nat} (received : Received nullAddr incoming arrived s t i)
    (more : i + 1 < (onBus nullAddr s).length) (word : (onBus nullAddr s).length < 2^16) (place : k = arrived + i + 1) :
    ∃ u, cycle nullAddr incoming ⟨t,some 0x50,k,trace⟩ =
        ⟨u,some (if i + 1 + 1 < (onBus nullAddr s).length then 0x50 else 0x58),k + 1,
          trace ++ [.received (incoming k) (i + 1 + 1 < (onBus nullAddr s).length)]⟩ ∧
      Received nullAddr incoming arrived s u (i + 1) := by
  obtain ⟨same,calm,rfl,twdr,memory⟩ := received
  have record := same.onBus nullAddr
  rw [← record] at more word
  obtain ⟨msg,installed,buff,handled⟩ := masterReceived_store nullAddr (show t.bufferIndex < _ by omega)
  have next : size (t.bufferIndex + 1) = t.bufferIndex + 1 := Nat.mod_eq_of_lt (by omega)
  have index : (t.store msg).next.bufferIndex = t.bufferIndex + 1 := next
  have later : Same t (t.store msg).next := ⟨rfl,rfl,rfl,rfl⟩
  have record' := later.onBus nullAddr
  obtain ⟨u,reacted,arrives⟩ := receive_reaction nullAddr incoming k trace (.inr rfl)
    (show Calm (t.store msg).next from ⟨calm.start,calm.stop⟩) (by rw [index]; omega)
  have status : twiStc nullAddr 0x50 t = masterReceive (t.store msg).next := handled
  have quiet : (masterReceive (t.store msg).next).signals = t.signals := by
    rw [masterReceive_onBus nullAddr]
    rfl
  refine ⟨u,?_,(same.trans later).trans arrives.same,arrives.calm,arrives.bufferIndex.trans index,?_,?_⟩
  · rw [cycle_unsignalled (by rw [status,quiet]),status,reacted,index,record',record]
  · rw [arrives.twdr,place]
    rfl
  · have stores : (t.store msg).next.memory = Function.update t.memory ((t.message msg).buff + t.bufferIndex) t.twdr := rfl
    rw [arrives.memory,stores,buff,twdr,memory,record,stored_succ]

variable (trace) in
/-- The bytes of a message behind the one that has arrived. -/
theorem receive_run {t : I2c Msg} {i : Nat} (n : Nat) (received : Received nullAddr incoming arrived s t i)
    (word : (onBus nullAddr s).length < 2^16) (rest : i + n + 1 = (onBus nullAddr s).wanted) :
    ∃ u, Leads nullAddr incoming
        ⟨t,some (if i + 1 < (onBus nullAddr s).length then 0x50 else 0x58),arrived + i + 1,trace⟩
        ⟨u,some 0x58,arrived + (onBus nullAddr s).wanted,trace ++ (List.range' (i + 1) n).map fun k =>
          .received (incoming (arrived + k)) (k + 1 < (onBus nullAddr s).length)⟩ ∧
      Received nullAddr incoming arrived s u ((onBus nullAddr s).wanted - 1) := by
  have wanted : (onBus nullAddr s).wanted = max 1 (onBus nullAddr s).length := rfl
  induction n generalizing t i trace with
  | zero =>
    have last : i = (onBus nullAddr s).wanted - 1 := by omega
    refine ⟨t,?_,last ▸ received⟩
    have place : arrived + i + 1 = arrived + (onBus nullAddr s).wanted := by omega
    rw [if_neg (by omega),place]
    simpa using Leads.refl _
  | succ n ih =>
    obtain ⟨u,cycled,received'⟩ := receive_cycle trace received (by omega) word rfl
    obtain ⟨v,led,received₂⟩ := ih (trace ++ [.received (incoming (arrived + (i + 1))) (i + 1 + 1 < (onBus nullAddr s).length)])
      received' (by omega)
    rw [List.append_assoc,List.singleton_append] at led
    rw [if_pos (by omega)]
    exact ⟨v,.cycle cycled led,received₂⟩

end Phases

end BermudaOS.Dev.AtmegaI2c
