import BermudaOS.Clib.Strings
import BermudaOS.Dev.I2cCore

/-! Writing to and reading from I2C sockets, `dev/i2c/i2c-dev.c`. A master socket has a layout
of the transmission, a string in memory with one character for each message. The client
writes down the address of each character of it that is read. -/
namespace BermudaOS.Dev.I2cLayout
open Lib.ByteMemory Clib.Strings AtmegaI2c

def I2C_MSG_CALL_BACK_FLAG : Features := 0x01

def I2C_MSG_SLAVE_MSG_FLAG : Features := 0x02

def I2C_MSG_MASTER_MSG_FLAG : Features := 0x04

def I2C_MSG_TRANSMIT_MSG_FLAG : Features := 0x08

def I2C_MSG_SENT_STOP_FLAG : Features := 0x10

def I2C_MSG_SENT_REP_START_FLAG : Features := 0x20

def I2C_MSG_FEATURES_MASK : Features :=
  I2C_MSG_CALL_BACK_FLAG ||| I2C_MSG_MASTER_MSG_FLAG ||| I2C_MSG_SLAVE_MSG_FLAG ||| I2C_MSG_TRANSMIT_MSG_FLAG |||
    I2C_MSG_SENT_STOP_FLAG ||| I2C_MSG_SENT_REP_START_FLAG

def I2C_MASTER : BitVec 16 := 0x100

def I2CDEV_CALL_BACK : BitVec 16 := 0x400

structure Client where
  sla : BitVec 16
  transmissionLayout : Nat
  msgs : List Message
  reads : List Nat

/-- A socket; `info->socket` of its client is the socket itself. -/
structure File where
  data : Option Client
  flags : BitVec 16

/-- Whether the heap has a block for the message and one for its node. -/
structure Blocks where
  msg : Bool
  node : Bool

def i2cSetTransmissionLayout (client : Client) (layout : Nat) : Client := {client with transmissionLayout := layout}

/-- The message goes to the tail of the list. -/
def i2cAddEntry (blocks : Blocks) (client : Client) (msg : Message) : Client × Int :=
  if blocks.node then
    let features :=
      if msg.features ≠ 0 then
        (if msg.features &&& I2C_MSG_SENT_STOP_FLAG ≠ 0 then I2C_MSG_SENT_STOP_FLAG else I2C_MSG_SENT_REP_START_FLAG) |||
          msg.features &&& (I2C_MSG_FEATURES_MASK ^^^ (I2C_MSG_SENT_STOP_FLAG ||| I2C_MSG_SENT_REP_START_FLAG))
      else 0
    ({client with msgs := client.msgs ++ [{msg with features := features}]},0)
  else (client,-1)

def i2cWriteClient (blocks : Blocks) (client : Client) (data : Nat) (size : BitVec 16) (flags : Features) : Client × Int :=
  if blocks.msg then i2cAddEntry blocks client ⟨data,size.toNat,client.sla,flags⟩ else (client,-1)

/-- The layout is advanced first and looked at then. -/
def masterFeatures (m : Memory) (direction : Features) (client : Client) : Client × Features :=
  let layout := client.transmissionLayout + 1
  let features := I2C_MSG_MASTER_MSG_FLAG ||| direction ||| I2C_MSG_SENT_REP_START_FLAG
  let client := {client with reads := client.reads ++ [layout]}
  let features :=
    if m layout = 0 then features &&& ~~~I2C_MSG_SENT_REP_START_FLAG ||| I2C_MSG_SENT_STOP_FLAG else features
  (i2cSetTransmissionLayout client layout,features)

/-- `i2cdev_write` and `i2cdev_read`, which differ in the flag for the direction. -/
def i2cdevTransfer (direction : Features) (m : Memory) (blocks : Blocks) (file : File) (buff : Nat) (size : BitVec 16) :
    File × Int :=
  match file.data with
  | none => (file,-1)
  | some client =>
    let (client,features) :=
      if file.flags &&& I2C_MASTER ≠ 0 then masterFeatures m direction client
      else (client,I2C_MSG_SLAVE_MSG_FLAG ||| direction)
    let features := if file.flags &&& I2CDEV_CALL_BACK ≠ 0 then features ||| I2C_MSG_CALL_BACK_FLAG else features
    let (client,rc) := i2cWriteClient blocks client buff size features
    ({file with data := some client},if rc = 0 then size.toInt else -1)

def i2cdevWrite : Memory → Blocks → File → Nat → BitVec 16 → File × Int := i2cdevTransfer I2C_MSG_TRANSMIT_MSG_FLAG

def i2cdevRead : Memory → Blocks → File → Nat → BitVec 16 → File × Int := i2cdevTransfer 0

/-- A call on the socket, with the flags that `mode` has given it before. -/
structure Call where
  write : Bool
  flags : BitVec 16
  buff : Nat
  size : BitVec 16
  blocks : Blocks

def Call.run (m : Memory) (file : File) (call : Call) : File :=
  let file := {file with flags := call.flags}
  if call.write then (i2cdevWrite m call.blocks file call.buff call.size).1
  else (i2cdevRead m call.blocks file call.buff call.size).1

def serve (m : Memory) (file : File) (calls : List Call) : File := calls.foldl (Call.run m) file

def Call.Master (call : Call) : Prop := call.flags &&& I2C_MASTER ≠ 0

instance (call : Call) : Decidable call.Master := inferInstanceAs (Decidable (_ ≠ _))

def File.reads (file : File) : List Nat := file.data.elim [] Client.reads

def File.msgs (file : File) : List Message := file.data.elim [] Client.msgs

def stops (msg : Message) : Prop := msg.features &&& I2C_MSG_SENT_STOP_FLAG ≠ 0

/-- The socket of a client whose layout has just been set to the string at `a`. -/
def socket (client : Client) (a : Nat) : File := ⟨some (i2cSetTransmissionLayout {client with reads := []} a),0⟩

/-- No character behind the `n` characters at `a` and their end is read, and the message of a
call has the stop flag when it is the call for the last character. -/
def Followed (m : Memory) (client : Client) (a n : Nat) (calls : List Call) : Prop :=
  (∀ x ∈ (serve m (socket client a) calls).reads,x ≤ a + n) ∧
  ∀ before call after msg,calls = before ++ call::after →
    (serve m (socket client a) (before ++ [call])).msgs = (serve m (socket client a) before).msgs ++ [msg] →
    (stops msg ↔ before.length + 1 = n)

variable {m : Memory} {client : Client} {a : Nat} {s : List UInt8} {calls : List Call}

structure Transferred (m : Memory) (client next : Client) : Prop where
  layout : next.transmissionLayout = client.transmissionLayout + 1
  reads : next.reads = client.reads ++ [client.transmissionLayout + 1]
  msgs : next.msgs = client.msgs ∨
    ∃ msg,next.msgs = client.msgs ++ [msg] ∧ (stops msg ↔ m (client.transmissionLayout + 1) = 0)

theorem addEntry_cases (blocks : Blocks) (client : Client) (msg : Message) :
    (i2cAddEntry blocks client msg).1 = client ∨
    ∃ kept,(i2cAddEntry blocks client msg).1 = {client with msgs := client.msgs ++ [kept]} ∧ (stops kept ↔ stops msg) := by
  unfold i2cAddEntry
  split
  · refine .inr ⟨_,rfl,?_⟩
    simp only [stops]
    generalize msg.features = features
    revert features
    decide
  · exact .inl rfl

theorem writeClient_cases (blocks : Blocks) (client : Client) (data : Nat) (size : BitVec 16) (flags : Features) :
    (i2cWriteClient blocks client data size flags).1 = client ∨
    ∃ kept,(i2cWriteClient blocks client data size flags).1 = {client with msgs := client.msgs ++ [kept]} ∧
      (stops kept ↔ flags &&& I2C_MSG_SENT_STOP_FLAG ≠ 0) := by
  unfold i2cWriteClient
  split
  · exact addEntry_cases blocks client _
  · exact .inl rfl

/-- Neither the direction nor the call back touches the stop flag. -/
theorem features_stop (write called : Bool) (stop : Bool) :
    let direction := if write then I2C_MSG_TRANSMIT_MSG_FLAG else 0
    let features := I2C_MSG_MASTER_MSG_FLAG ||| direction ||| I2C_MSG_SENT_REP_START_FLAG
    let features := if stop then features &&& ~~~I2C_MSG_SENT_REP_START_FLAG ||| I2C_MSG_SENT_STOP_FLAG else features
    let features := if called then features ||| I2C_MSG_CALL_BACK_FLAG else features
    features &&& I2C_MSG_SENT_STOP_FLAG ≠ 0 ↔ stop = true := by
  revert write called stop
  decide

theorem Call.run_eq (m : Memory) (file : File) (call : Call) :
    call.run m file = (i2cdevTransfer (if call.write then I2C_MSG_TRANSMIT_MSG_FLAG else 0) m call.blocks
      {file with flags := call.flags} call.buff call.size).1 := by
  unfold Call.run i2cdevWrite i2cdevRead
  split <;> rfl

/-- One call moves the layout by one character and reads that character only. -/
theorem run_master {file : File} {call : Call} (data : file.data = some client) (master : call.Master) :
    ∃ next,(call.run m file).data = some next ∧ Transferred m client next := by
  have stop := features_stop call.write (decide (call.flags &&& I2CDEV_CALL_BACK ≠ 0))
    (decide (m (client.transmissionLayout + 1) = 0))
  rw [Call.run_eq,i2cdevTransfer]
  simp only [data,if_pos (show call.flags &&& I2C_MASTER ≠ 0 from master),masterFeatures]
  simp only [decide_eq_true_eq] at stop
  rcases writeClient_cases call.blocks (i2cSetTransmissionLayout
    {client with reads := client.reads ++ [client.transmissionLayout + 1]} (client.transmissionLayout + 1))
    call.buff call.size _ with same | ⟨kept,added,keeps⟩
  · exact ⟨_,rfl,by rw [same]; rfl,by rw [same]; rfl,.inl (by rw [same]; rfl)⟩
  · exact ⟨_,rfl,by rw [added]; rfl,by rw [added]; rfl,.inr ⟨kept,by rw [added]; rfl,keeps.trans stop⟩⟩

theorem serve_master (m : Memory) (client : Client) (a : Nat) {calls : List Call} (master : ∀ call ∈ calls,call.Master) :
    ∃ next,(serve m (socket client a) calls).data = some next ∧
      next.transmissionLayout = a + calls.length ∧ next.reads = (List.range calls.length).map (a + 1 + ·) := by
  induction calls using List.reverseRecOn with
  | nil => exact ⟨_,rfl,rfl,rfl⟩
  | append_singleton calls call ih =>
    obtain ⟨before,data,layout,reads⟩ := ih fun c mem => master c (List.mem_append_left _ mem)
    obtain ⟨next,after,step⟩ := run_master (m := m) data (master call (by simp))
    refine ⟨next,by rw [serve,List.foldl_append]; exact after,?_,?_⟩
    · rw [step.layout,layout,List.length_append,List.length_singleton,Nat.add_assoc]
    · rw [step.reads,reads,layout,List.length_append,List.length_singleton,List.range_succ,List.map_append]
      simp only [List.map_cons,List.map_nil]
      congr 2
      omega

theorem serve_stops {calls : List Call} {call : Call} {msg : Message} (master : ∀ c ∈ calls,c.Master) (last : call.Master)
    (added : (serve m (socket client a) (calls ++ [call])).msgs = (serve m (socket client a) calls).msgs ++ [msg]) :
    stops msg ↔ m (a + (calls.length + 1)) = 0 := by
  obtain ⟨before,data,layout,-⟩ := serve_master m client a master
  obtain ⟨next,after,step⟩ := run_master (m := m) data last
  have after : (serve m (socket client a) (calls ++ [call])).data = some next := by
    rw [serve,List.foldl_append]
    exact after
  simp only [File.msgs,after,data,Option.elim] at added
  rw [← Nat.add_assoc,← layout]
  rcases step.msgs with same | ⟨kept,appended,keeps⟩
  · exact absurd (same.symm.trans added) (by simp)
  · obtain rfl : kept = msg := by simpa using appended.symm.trans added
    exact keeps

theorem layout_followed (string : StringAt m a s) (master : ∀ call ∈ calls,call.Master) :
    Followed m client a s.length calls ↔ calls.length ≤ s.length := by
  obtain ⟨next,data,-,reads⟩ := serve_master m client a master
  have log : (serve m (socket client a) calls).reads = (List.range calls.length).map (a + 1 + ·) := by
    simp only [File.reads,data,Option.elim,reads]
  constructor
  · rintro ⟨inside,-⟩
    by_contra long
    have far := inside (a + 1 + s.length) (by rw [log]; exact List.mem_map_of_mem (List.mem_range.mpr (by omega)))
    omega
  · intro short
    refine ⟨fun x mem => ?_,fun before call after msg split added => ?_⟩
    · rw [log,List.mem_map] at mem
      obtain ⟨k,below,rfl⟩ := mem
      have below := List.mem_range.mp below
      omega
    · subst split
      rw [List.length_append,List.length_cons] at short
      rw [serve_stops (fun c mem => master c (by simp [mem])) (master call (by simp)) added]
      exact stringAt_zero string _ (by omega)

/-- The layout `"wr"` at address 0. -/
def writeRead : Memory := fun x => if x = 0 then 0x77 else if x = 1 then 0x72 else 0

def sensor : Client := ⟨0x54,0,[],[]⟩

def transmit : Call := ⟨true,0x103,0x200,4,true,true⟩

def receive : Call := ⟨false,0x103,0x300,4,true,true⟩

/-- The second write of the module's usage example, which asks for a call back. -/
def again : Call := ⟨true,0x503,0x400,4,true,true⟩

theorem layout_followed_pair :
    StringAt writeRead 0 [0x77,0x72] ∧ (∀ call ∈ [transmit,receive],call.Master) ∧
    (Followed writeRead sensor 0 2 [transmit,receive] ↔ 2 ≤ 2) := by
  have string : StringAt writeRead 0 [0x77,0x72] := by decide
  have master : ∀ call ∈ [transmit,receive],call.Master := by decide
  exact ⟨string,master,layout_followed string master⟩

/-- The third call of the usage example reads behind the layout. -/
theorem layout_strays :
    StringAt writeRead 0 [0x77,0x72] ∧ (∀ call ∈ [transmit,receive,again],call.Master) ∧
    ¬ Followed writeRead sensor 0 2 [transmit,receive,again] := by
  refine ⟨by decide,by decide,fun followed => ?_⟩
  have far := followed.1 3 (by decide)
  omega

end BermudaOS.Dev.I2cLayout
