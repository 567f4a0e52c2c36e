import BermudaOS.Dev.I2cMsg
import Mathlib.Data.BitVec

/-! The interrupt handler of the TWI hardware, `dev/i2c/busses/atmega-i2c.c`. Messages are
named by their addresses, their buffers are bytes of one memory. The handler writes down
each access to a buffer and each signal it gives. -/
namespace BermudaOS.Dev.AtmegaI2c
open I2cMsg

abbrev Features := BitVec 8

def I2C_MSG_CALL_BACK_MASK : Features := 0x01

def I2C_MSG_MASTER_MSG_MASK : Features := 0x04

def I2C_MSG_DONE_FLAG : Features := 0x40

structure Message where
  buff : Nat
  length : Nat
  addr : BitVec 16
  features : Features

/-- The bits of `TWCR`. -/
def TWINT : BitVec 8 := 0x80

def TWEA : BitVec 8 := 0x40

def TWSTA : BitVec 8 := 0x20

def TWSTO : BitVec 8 := 0x10

def TWEN : BitVec 8 := 0x04

def TWIE : BitVec 8 := 0x01

/-- An access to `buff[index]` of a message, with the length of the message at that moment. -/
structure Access (Msg : Type) where
  msg : Msg
  index : Nat
  length : Nat

inductive Queue where
  | master
  | slave
  deriving DecidableEq

structure I2c (Msg : Type) where
  message : Msg → Message
  memory : Nat → BitVec 8
  msgVector : MsgVector Msg
  busy : Bool
  error : Bool
  bufferIndex : Nat
  masterMsg : Option Msg
  lastMasterMsg : Option Msg
  slaveMsg : Option Msg
  lastSlaveMsg : Option Msg
  twcr : BitVec 8
  twdr : BitVec 8
  /-- A thread waits in the slave queue: its word is neither `NULL` nor `SIGNALED`. -/
  slaveWaits : Bool
  accesses : List (Access Msg)
  signals : List Queue

variable {Msg : Type} [DecidableEq Msg]

namespace I2c

def setFeatures (s : I2c Msg) (msg : Msg) (features : Features) : I2c Msg :=
  {s with message := Function.update s.message msg {s.message msg with features := features}}

/-- `msg->features |= I2C_MSG_DONE_FLAG`. -/
def setDone (s : I2c Msg) (msg : Msg) : I2c Msg := s.setFeatures msg ((s.message msg).features ||| I2C_MSG_DONE_FLAG)

def setLength (s : I2c Msg) (msg : Msg) (length : Nat) : I2c Msg :=
  {s with message := Function.update s.message msg {s.message msg with length := length}}

def setAddr (s : I2c Msg) (msg : Msg) (addr : BitVec 16) : I2c Msg :=
  {s with message := Function.update s.message msg {s.message msg with addr := addr}}

def callsBack (s : I2c Msg) (msg : Msg) : Bool := (s.message msg).features &&& I2C_MSG_CALL_BACK_MASK != 0

def access (s : I2c Msg) (msg : Msg) : I2c Msg :=
  {s with accesses := s.accesses ++ [⟨msg,s.bufferIndex,(s.message msg).length⟩]}

/-- `TWDR = msg->buff[buffer_index]`. -/
def load (s : I2c Msg) (msg : Msg) : I2c Msg :=
  {s.access msg with twdr := s.memory ((s.message msg).buff + s.bufferIndex)}

/-- `msg->buff[buffer_index] = TWDR`. -/
def store (s : I2c Msg) (msg : Msg) : I2c Msg :=
  {s.access msg with memory := Function.update s.memory ((s.message msg).buff + s.bufferIndex) s.twdr}

def next (s : I2c Msg) : I2c Msg := {s with bufferIndex := size (s.bufferIndex + 1)}

/-- `event_signal_from_isr`. -/
def signal (s : I2c Msg) (queue : Queue) : I2c Msg := {s with signals := s.signals ++ [queue]}

def setBusy (s : I2c Msg) (busy : Bool) : I2c Msg := {s with busy := busy}

end I2c

inductive Ctrl where
  | I2C_START_ACK
  | I2C_START_NACK
  | I2C_STOP_ACK
  | I2C_STOP_NACK
  | I2C_RELEASE
  | I2C_ACK
  | I2C_NACK
  | I2C_BLOCK
  | I2C_RESET

/-- The new value of `TWCR`. -/
def ioctlReg (reg : BitVec 8) : Ctrl → BitVec 8
  | .I2C_START_ACK => reg ||| (TWSTA ||| TWINT ||| TWEA ||| TWEN ||| TWIE)
  | .I2C_START_NACK => TWSTA ||| TWINT ||| TWIE ||| TWEN ||| (reg &&& ~~~TWEA)
  | .I2C_STOP_ACK => reg ||| (TWSTO ||| TWINT ||| TWEA ||| TWEN ||| TWIE)
  | .I2C_STOP_NACK => (reg &&& ~~~TWEA) ||| TWSTO ||| TWINT ||| TWEN ||| TWIE
  | .I2C_RELEASE => reg ||| (TWEN ||| TWIE ||| TWINT)
  | .I2C_ACK => reg ||| (TWINT ||| TWEA ||| TWEN ||| TWIE)
  | .I2C_NACK => (reg &&& ~~~TWEA) ||| TWINT ||| TWEN ||| TWIE
  | .I2C_BLOCK => reg &&& ~~~(TWINT ||| TWIE)
  | .I2C_RESET => reg ||| TWSTO

/-- `atmega_i2c_ioctl`. -/
def ctrl (s : I2c Msg) (cfg : Ctrl) : I2c Msg := {s with twcr := ioctlReg s.twcr cfg}

def i2cMsgFeatures (s : I2c Msg) (p : Option Msg) : Features := p.elim 0 fun msg => (s.message msg).features

def i2cMsgIsMaster (s : I2c Msg) (p : Option Msg) : Bool := i2cMsgFeatures s p &&& I2C_MSG_MASTER_MSG_MASK != 0

/-- `i2c_vector_get`, of a vector that has been created. -/
def vectorGet (s : I2c Msg) (index : Nat) : Option Msg :=
  match (i2cVectorGet s.msgVector index).2 with
  | .message msg => some msg
  | _ => none

/-- The loops of `i2c_first_master_msg` and `i2c_first_slave_msg`, for the `n` entries from `i` on. -/
def firstWalk (s : I2c Msg) (master : Bool) : Nat → Nat → Option Nat
  | 0,_ => none
  | n+1,i =>
    let msg := vectorGet s i
    if i2cMsgIsMaster s msg = master ∧ i2cMsgFeatures s msg &&& I2C_MSG_DONE_FLAG = 0 then some i
    else firstWalk s master n (i + 1)

def i2cFirstMasterMsg (s : I2c Msg) : Option Nat := firstWalk s true s.msgVector.length 0

def i2cFirstSlaveMsg (s : I2c Msg) : Option Nat := firstWalk s false s.msgVector.length 0

def atmegaI2cUpdateFromIsr (s : I2c Msg) : I2c Msg :=
  let s := {s with masterMsg := (i2cFirstMasterMsg s).bind (vectorGet s)}
  {s with slaveMsg := (i2cFirstSlaveMsg s).bind (vectorGet s)}

def atmegaI2cSlaveBuffEnd (s : I2c Msg) : I2c Msg :=
  match s.slaveMsg with
  | none =>
    let s := atmegaI2cUpdateFromIsr {s.setBusy false with lastSlaveMsg := none}
    let s := if s.masterMsg.isSome then ctrl s .I2C_START_NACK else ctrl s .I2C_NACK
    s.signal .slave
  | some msg =>
    let s := {s with lastSlaveMsg := some msg}
    if s.callsBack msg then
      let s := ctrl (s.signal .slave) .I2C_BLOCK
      {s with error := false}
    else
      let s := atmegaI2cUpdateFromIsr (s.setDone msg)
      if s.slaveMsg.isSome then ctrl s .I2C_ACK
      else if s.masterMsg.isSome then ((ctrl s .I2C_START_ACK).signal .slave).setBusy false
      else (ctrl (s.signal .slave) .I2C_NACK).setBusy false

/-- The byte that `master_msg->addr` reads when `master_msg` is `NULL`. -/
abbrev Stray := BitVec 8

def masterStart (nullAddr : Stray) (s : I2c Msg) (twcr : BitVec 8) : I2c Msg :=
  {s with bufferIndex := 0,busy := true,error := false,
          twdr := s.masterMsg.elim nullAddr fun msg => (s.message msg).addr.setWidth 8,
          twcr := TWEN ||| TWIE ||| (twcr &&& TWEA) ||| TWINT}

/-- A sent message is done with: the next one, or the end of the transfer. -/
def masterSent (s : I2c Msg) : I2c Msg :=
  let s := atmegaI2cUpdateFromIsr {s with lastMasterMsg := s.masterMsg}
  if s.masterMsg.isSome then ctrl s .I2C_START_ACK
  else if s.slaveMsg.isSome then (ctrl (s.setBusy false) .I2C_STOP_ACK).signal .master
  else (ctrl (s.setBusy false) .I2C_STOP_NACK).signal .master

/-- `I2C_MT_SLA_ACK` and `I2C_MT_DATA_ACK`. -/
def masterTransmit (s : I2c Msg) : I2c Msg :=
  match s.masterMsg with
  | some msg =>
    if s.bufferIndex < (s.message msg).length then ctrl (s.load msg).next .I2C_ACK
    else
      let s := {s with lastMasterMsg := some msg}
      if s.callsBack msg then ctrl (s.signal .master) .I2C_BLOCK else masterSent (s.setDone msg)
  | none => masterSent s

def masterNack (s : I2c Msg) : I2c Msg :=
  let s := match s.masterMsg with
    | some msg => s.setDone msg
    | none => s
  let s := {s with lastMasterMsg := s.masterMsg,busy := false}
  let s := (atmegaI2cUpdateFromIsr s).signal .master
  if s.slaveMsg.isSome then ctrl s .I2C_STOP_ACK else ctrl s .I2C_STOP_NACK

def masterArbLost (s : I2c Msg) (twcr : BitVec 8) : I2c Msg :=
  {s.setBusy false with twcr := TWINT ||| TWEN ||| TWIE ||| (twcr &&& TWEA) ||| TWSTA}

/-- `I2C_MR_SLA_ACK`: whether the next byte is acknowledged. -/
def masterReceive (s : I2c Msg) : I2c Msg :=
  match s.masterMsg with
  | some msg => if size (s.bufferIndex + 1) < (s.message msg).length then ctrl s .I2C_ACK else ctrl s .I2C_NACK
  | none => ctrl s .I2C_NACK

/-- `I2C_MR_DATA_ACK`, which falls through to `I2C_MR_SLA_ACK`. -/
def masterReceived (s : I2c Msg) : I2c Msg :=
  match s.masterMsg with
  | some msg =>
    if s.bufferIndex < (s.message msg).length then masterReceive (s.store msg).next else ctrl s .I2C_NACK
  | none => masterReceive s

/-- A received message is done with: the next one, or the end of the transfer. -/
def masterEnd (s : I2c Msg) : I2c Msg :=
  let s := atmegaI2cUpdateFromIsr {s with lastMasterMsg := s.masterMsg}
  if s.masterMsg.isSome then ctrl s .I2C_START_ACK
  else
    let s := if s.slaveMsg.isSome then ctrl s .I2C_STOP_ACK else ctrl s .I2C_STOP_NACK
    (s.setBusy false).signal .master

/-- `I2C_MR_DATA_NACK`. -/
def masterReceivedLast (s : I2c Msg) : I2c Msg :=
  match s.masterMsg with
  | some msg =>
    let s := if s.bufferIndex < (s.message msg).length then s.store msg else s
    let s := {s with lastMasterMsg := some msg}
    if s.callsBack msg then ctrl (s.signal .master) .I2C_BLOCK else masterEnd (s.setDone msg)
  | none => masterEnd s

def slaveAddressed (s : I2c Msg) : I2c Msg :=
  let s := {s with bufferIndex := 0}
  match s.slaveMsg with
  | some msg =>
    if (s.message msg).length ≠ 0 then (((ctrl s .I2C_ACK).setBusy true).setAddr msg (s.twdr.setWidth 16))
    else ctrl s .I2C_NACK
  | none => ctrl s .I2C_NACK

def slaveReceived (s : I2c Msg) : I2c Msg :=
  match s.slaveMsg with
  | none => ctrl s .I2C_NACK
  | some msg =>
    let s := if s.bufferIndex < (s.message msg).length then (s.store msg).next else s.setLength msg 0
    if (s.message msg).length ≠ 0 then ctrl s .I2C_ACK else ctrl s .I2C_NACK

/-- `slave_msg->features &= ~I2C_MSG_CALL_BACK_MASK`, when there is a message. -/
def slavePlain (s : I2c Msg) : I2c Msg :=
  match s.slaveMsg with
  | some msg => s.setFeatures msg ((s.message msg).features &&& ~~~I2C_MSG_CALL_BACK_MASK)
  | none => s

/-- `slave_msg->features |= I2C_MSG_DONE_FLAG`, when there is a message. -/
def slaveDone (s : I2c Msg) : I2c Msg :=
  match s.slaveMsg with
  | some msg => s.setDone msg
  | none => s

/-- `I2C_SR_STOP`. -/
def slaveStopped (s : I2c Msg) : I2c Msg :=
  if ¬ s.slaveWaits then
    let s := atmegaI2cUpdateFromIsr (slavePlain s)
    let s := slaveDone (if s.masterMsg.isSome then ctrl s .I2C_START_NACK else ctrl s .I2C_NACK)
    {s with lastSlaveMsg := none,busy := false,error := false}
  else atmegaI2cSlaveBuffEnd s

/-- `I2C_ST_DATA_ACK`. -/
def slaveTransmit (s : I2c Msg) : I2c Msg :=
  match s.slaveMsg with
  | some msg =>
    if (s.message msg).length ≠ 0 ∧ s.bufferIndex < (s.message msg).length then
      let s := (s.load msg).next
      if s.bufferIndex < (s.message msg).length then ctrl s .I2C_ACK else ctrl s .I2C_NACK
    else ctrl {s with twdr := 0} .I2C_NACK
  | none => ctrl {s with twdr := 0} .I2C_NACK

def busError (s : I2c Msg) : I2c Msg :=
  let s := {ctrl s .I2C_STOP_NACK with lastMasterMsg := none,lastSlaveMsg := none}
  {(s.signal .slave).signal .master with busy := false,error := true}

/-- `SIGNAL(TWI_STC_vect)`, for a value of the status bits of `TWSR`. -/
def twiStc (nullAddr : Stray) (status : Nat) (s : I2c Msg) : I2c Msg :=
  match status with
  | 0x08 | 0x10 => masterStart nullAddr s s.twcr
  | 0x18 | 0x28 => masterTransmit s
  | 0x20 | 0x30 | 0x48 => masterNack s
  | 0x38 => masterArbLost s s.twcr
  | 0x50 => masterReceived s
  | 0x40 => masterReceive s
  | 0x58 => masterReceivedLast s
  | 0x78 | 0x68 | 0x60 | 0x70 => slaveAddressed s
  | 0x80 | 0x90 => slaveReceived s
  | 0x88 | 0x98 => ctrl s .I2C_NACK
  | 0xA0 => slaveStopped s
  | 0xB0 | 0xA8 => slaveTransmit {s.setBusy true with bufferIndex := 0}
  | 0xB8 => slaveTransmit s
  | 0xC0 | 0xC8 => atmegaI2cSlaveBuffEnd s
  | _ => busError s

end BermudaOS.Dev.AtmegaI2c
