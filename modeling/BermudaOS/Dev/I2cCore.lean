import BermudaOS.Dev.AtmegaI2c

/-! Transfers of the I2C core, `dev/i2c/i2c-core.c`. The core writes down each pointer that it uses as a message,
and whether an allocated message is there. What the driver, the heap and the call back do is given turn by turn. -/
namespace BermudaOS.Dev.I2cCore
open I2cMsg AtmegaI2c

def I2C_MSG_SLAVE_MSG_MASK : Features := 0x02

def I2C_MSG_TRANSMIT_MSG_MASK : Features := 0x08

def I2C_MASTER_SUPPORT : Features := 0x01

def I2C_SLAVE_SUPPORT : Features := 0x02

def devError : Int := 1

def devInternal : Int := 7

/-- A pointer that is dereferenced as a message, deleted from the vector or freed. -/
structure Use (Msg : Type) where
  pointer : Pointer Msg
  live : Bool

structure Core (Msg : Type) where
  vector : MsgVector Msg
  features : Msg → Features
  live : Msg → Bool
  uses : List (Use Msg)

variable {Msg : Type} [DecidableEq Msg]

namespace Core

omit [DecidableEq Msg] in
def isLive (s : Core Msg) : Pointer Msg → Bool
  | .message msg => s.live msg
  | _ => false

omit [DecidableEq Msg] in
def use (s : Core Msg) (p : Pointer Msg) : Core Msg := {s with uses := s.uses ++ [⟨p,s.isLive p⟩]}

def setFeatures (s : Core Msg) (p : Pointer Msg) (features : Features) : Core Msg :=
  match p with
  | .message msg => {s.use p with features := Function.update s.features msg features}
  | _ => s.use p

def free (s : Core Msg) (p : Pointer Msg) : Core Msg :=
  match p with
  | .message msg => {s.use p with live := Function.update s.live msg false}
  | _ => s.use p

/-- The block for a new message, as the call back has filled it. -/
def give (s : Core Msg) (newmsg : Msg) (features : Features) : Core Msg :=
  {s with live := Function.update s.live newmsg true
          features := Function.update s.features newmsg features}

omit [DecidableEq Msg] in
def get (s : Core Msg) (index : Nat) : Core Msg × Pointer Msg :=
  ({s with vector := (i2cVectorGet s.vector index).1},(i2cVectorGet s.vector index).2)

end Core

omit [DecidableEq Msg] in
/-- `i2c_msg_features`: `garbage` is read where there is no message. -/
def i2cMsgFeatures (garbage : Features) (s : Core Msg) (p : Pointer Msg) : Core Msg × Features :=
  match p with
  | .null => (s,0)
  | .message msg => (s.use p,s.features msg)
  | .ptrError _ => (s.use p,garbage)

def isMaster (features : Features) : Bool := features &&& I2C_MSG_MASTER_MSG_MASK != 0

def isDone (features : Features) : Bool := features &&& I2C_MSG_DONE_FLAG != 0

/-- `I2C_MSG_CHECK`, as `i2c_check_msg` uses it. -/
def i2cCheckMsg (msg bus : Features) : Bool :=
  (((msg &&& I2C_MSG_MASTER_MSG_MASK) >>> 2) &&& ((bus &&& I2C_MASTER_SUPPORT) >>> 0)) ^^^
    ((msg >>> 1) &&& ((bus &&& I2C_SLAVE_SUPPORT) >>> 1)) != 0

def cleanupStep (garbage : Features) (master : Bool) (i : Nat) (s : Core Msg) : Core Msg :=
  let (s,msg) := s.get i
  let (s,features) := i2cMsgFeatures garbage s msg
  if isMaster features = master ∧ isDone features then
    (({s with vector := (i2cVectorDeleteAt s.vector i).1} : Core Msg).use msg).free msg
  else s

/-- The loop of `i2c_cleanup_adapter_msgs`, from `i` down to 0. -/
def cleanupWalk (garbage : Features) (master : Bool) : Nat → Core Msg → Core Msg
  | 0,s => cleanupStep garbage master 0 s
  | i+1,s => cleanupWalk garbage master i (cleanupStep garbage master (i + 1) s)

omit [DecidableEq Msg] in
def i2cVectorReshape (heap : Nat → Bool) (v : MsgVector Msg) : MsgVector Msg :=
  if v.limit = defaultMsgLimit then v
  else if size (v.length + defaultMsgLimit) < v.length then
    let bytes := size (size (v.length + defaultMsgLimit) * entrySize)
    let (grown,block) := v.realloc heap bytes
    {(if block then grown else {grown with data := none}) with limit := size (v.length + defaultMsgLimit)}
  else v

def i2cCleanupAdapterMsgs (garbage : Features) (heap : Nat → Bool) (master : Bool) (s : Core Msg) : Core Msg :=
  let s := cleanupWalk garbage master (size (s.vector.length + 65535)) s
  {s with vector := i2cVectorReshape heap s.vector}

omit [DecidableEq Msg] in
/-- The loops of `i2c_first_slave_msg` and `i2c_first_master_msg`, for the `n` entries from `i` on. -/
def firstWalk (garbage : Features) (master : Bool) : Nat → Nat → Core Msg → Core Msg × Option Nat
  | 0,_,s => (s,none)
  | n+1,i,s =>
    let (s,msg) := s.get i
    let (s,features) := i2cMsgFeatures garbage s msg
    if isMaster features = master ∧ ¬ isDone features then (s,some i) else firstWalk garbage master n (i + 1) s

/-- `msg->features |= I2C_MSG_DONE_FLAG`, without a look at the pointer. -/
def setDone (garbage : Features) (s : Core Msg) (p : Pointer Msg) : Core Msg :=
  s.setFeatures p ((i2cMsgFeatures garbage s p).2 ||| I2C_MSG_DONE_FLAG)

def slaveTmoWalk (garbage : Features) : Nat → Nat → Core Msg → Core Msg
  | 0,_,s => s
  | n+1,i,s =>
    let (s,msg) := s.get i
    slaveTmoWalk garbage n (i + 1) (setDone garbage s msg)

def i2cSlaveTmo (garbage : Features) (heap : Nat → Bool) (s : Core Msg) : Core Msg :=
  let length := s.vector.length
  match firstWalk garbage false length 0 s with
  | (s,some index) => i2cCleanupAdapterMsgs garbage heap false (slaveTmoWalk garbage (length - index) index s)
  | (s,none) => s

def masterTmoWalk (garbage : Features) : Nat → Nat → Core Msg → Core Msg
  | 0,_,s => s
  | n+1,i,s =>
    let (s,msg) := s.get i
    let (s,features) := i2cMsgFeatures garbage s msg
    if features &&& I2C_MSG_SLAVE_MSG_MASK ≠ 0 then s else masterTmoWalk garbage n (i + 1) (setDone garbage s msg)

def i2cMasterTmo (garbage : Features) (heap : Nat → Bool) (s : Core Msg) : Core Msg :=
  let s := match firstWalk garbage true s.vector.length 0 s with
    | (s,some index) => masterTmoWalk garbage (s.vector.length - index) index s
    | (s,none) => s
  i2cCleanupAdapterMsgs garbage heap true s

omit [DecidableEq Msg] in
/-- The entries that `i2c_vector_add` looks at for a master message, from `i` on. -/
def addUses (s : Core Msg) : Nat → Nat → Core Msg
  | 0,_ => s
  | n+1,i =>
    if i = s.vector.length then s
    else
      match s.vector.entry i with
      | none => s
      | some msg => if isMaster (s.features msg) then addUses (s.use (.message msg)) n (i + 1) else s.use (.message msg)

omit [DecidableEq Msg] in
def vectorAdd (heap : Nat → Bool) (s : Core Msg) (msg : Msg) (master : Bool) : Core Msg × Int :=
  let looked := if master then addUses s (s.vector.length + 1) 0 else s
  let (v,rc) := i2cVectorAdd (fun m => isMaster (s.features m)) heap {s.vector with refused := false} msg master
  ({looked with vector := v},rc)

omit [DecidableEq Msg] in
def i2cVectorError (heap : Nat → Bool) (block : Nat → Option Msg) (v : MsgVector Msg) (error : Int) :
    MsgVector Msg × Int :=
  if error = -devNull then (v,error)
  else if error = -devNoinit then i2cCreateMsgVector heap v block
  else if error = -devOutofbounds then
    let (v,grown) := v.realloc heap (size (size (v.length + 1) * entrySize))
    if grown then ({v with limit := size (v.length + 1)},-devOk) else ({v with data := none},-devNull)
  else (v,-devError)

omit [DecidableEq Msg] in
def vectorInsertAt (heap : Nat → Bool) (s : Core Msg) (msg : Msg) (index : Nat) : Core Msg × Int :=
  match s.vector.data with
  | none => (s,-devNoinit)
  | some _ =>
    let (v,rc) := i2cVectorShiftRight heap {s.vector with refused := false} index 1
    if rc = -devOk then ({s with vector := v.write index (some msg)},rc) else ({s with vector := v},rc)

/-- A message of the client, and the heap while it is added to the vector. -/
structure Queued (Msg : Type) where
  msg : Msg
  heap : Nat → Bool
  created : Nat → Bool
  block : Nat → Option Msg
  again : Nat → Bool

structure Client (Msg : Type) where
  master : Bool
  callsBack : Bool
  busFeatures : Features
  queued : List (Queued Msg)

/-- The loop that adds the messages of the client; its result is `rc`. -/
def addMessages (client : Client Msg) : List (Queued Msg) → Core Msg → Int → Core Msg × Int
  | [],s,rc => (s,rc)
  | q::qs,s,_ =>
    let p := Pointer.message q.msg
    let features := s.features q.msg
    let s := s.use p
    if i2cCheckMsg features (client.busFeatures &&& (I2C_MASTER_SUPPORT ||| I2C_SLAVE_SUPPORT)) then
      let features := if features &&& I2C_MSG_CALL_BACK_MASK ≠ 0 ∧ ¬ client.callsBack then
        features &&& ~~~I2C_MSG_CALL_BACK_MASK else features
      let s := s.setFeatures p features
      let (s,rc) := vectorAdd q.heap s q.msg client.master
      if rc ≠ 0 then
        let (v,error) := i2cVectorError q.created q.block s.vector rc
        let s := {s with vector := v}
        if error = 0 then
          let (s,rc) := vectorAdd q.again s q.msg client.master
          addMessages client qs s rc
        else (s.free p,-devInternal)
      else addMessages client qs s rc
    else addMessages client qs (s.free p) (-devInternal)

/-- What happens in one turn of the loop of `__i2c_start_xfer`. -/
structure Turn (Msg : Type) where
  /-- The flags of the messages, which the driver and its interrupts change. -/
  flags : Msg → Features
  malloc : Option Msg
  /-- The features that the call back gives to the message that it adds. -/
  features : Features
  insert : Nat → Bool
  fix : Nat → Bool
  again : Nat → Bool
  reshape : Nat → Bool
  resumed : Int
  index : Nat

/-- A block that is in use is not given out again. -/
def malloc (s : Core Msg) (offered : Option Msg) : Option Msg := offered.filter fun msg => !s.live msg

/-- The call back of a message and the message that it adds, with the new index and `rc`, or `none` after `break`. -/
def callBack (garbage : Features) (client : Client Msg) (turn : Turn Msg) (s : Core Msg) (msg : Pointer Msg)
    (index : Nat) :
    Core Msg × Option (Nat × Int) :=
  match malloc s turn.malloc with
  | none => (s,none)
  | some newmsg =>
    let p := Pointer.message newmsg
    let s := (s.give newmsg turn.features).use p
    if i2cCheckMsg turn.features (client.busFeatures &&& (I2C_MASTER_SUPPORT ||| I2C_SLAVE_SUPPORT)) then
      let s := (setDone garbage (s.use msg) msg).setFeatures p (turn.features &&& ~~~I2C_MSG_DONE_FLAG)
      let index := size (index + 1)
      let (s,rc) := vectorInsertAt turn.insert s newmsg index
      if rc ≠ 0 then
        let (v,error) := i2cVectorError turn.fix (fun _ => none) s.vector rc
        let s := {s with vector := v}
        if error = 0 then
          let (s,rc) := vectorInsertAt turn.again s newmsg index
          (s,some (index,rc))
        else (s.free p,none)
      else (s,some (index,rc))
    else (s.free p,none)

/-- `i2c_update`, with the number of messages that it deletes. -/
def i2cUpdate (garbage : Features) (heap : Nat → Bool) (master : Bool) (s : Core Msg) : Core Msg × Nat :=
  let later := i2cCleanupAdapterMsgs garbage heap master s
  (later,size (s.vector.length + 65536 - later.vector.length))

def turnCall (garbage : Features) (client : Client Msg) (turn : Turn Msg) (s : Core Msg) (index : Nat) (rc : Int) :
    Core Msg × Option (Nat × Int) :=
  let (s,msg) := ({s with features := turn.flags} : Core Msg).get index
  let (s,features) := i2cMsgFeatures garbage s msg
  if features &&& I2C_MSG_CALL_BACK_MASK ≠ 0 then callBack garbage client turn s msg index else (s,some (index,rc))

/-- `loop_continue`. -/
def turnUpdate (garbage : Features) (client : Client Msg) (turn : Turn Msg) (s : Core Msg) (index : Nat) :
    Core Msg × Nat :=
  let (s,diff) := if 0 < index then i2cUpdate garbage turn.reshape client.master s else (s,0)
  (s,size (index + 65536 - diff))

/-- The loop behind the transfer, and whether it has ended. -/
def loop (garbage : Features) (client : Client Msg) : List (Turn Msg) → Core Msg → Nat → Int → Core Msg × Bool
  | [],s,_,_ => (s,false)
  | turn::turns,s,index,rc =>
    match turnCall garbage client turn s index rc with
    | (s,none) => (s,true)
    | (s,some (index,rc)) =>
      let (s,index) := turnUpdate garbage client turn s index
      if index < s.vector.length ∧ rc = 0 then
        -- the driver resumes the transfer
        if turn.index ≠ 65535 ∧ turn.index < s.vector.length ∧ turn.resumed = 0 then
          loop garbage client turns s turn.index turn.resumed
        else (s,true)
      else (s,true)

structure Xfer (Msg : Type) where
  flags : Msg → Features
  result : Int
  index : Nat
  turns : List (Turn Msg)
  flagsAfter : Msg → Features
  reshape : Nat → Bool

def afterXfer (garbage : Features) (client : Client Msg) (xfer : Xfer Msg) (s : Core Msg) : Core Msg :=
  let s := {s with features := xfer.flags}
  let (s,ended) :=
    if xfer.result = 0 ∧ xfer.index ≠ 65535 then loop garbage client xfer.turns s xfer.index xfer.result else (s,true)
  if ended then (i2cUpdate garbage xfer.reshape client.master {s with features := xfer.flagsAfter}).1 else s

/-- `__i2c_start_xfer`, once the adapter is locked; the driver may not have returned yet. -/
def transfer (garbage : Features) (heap : Nat → Bool) (client : Client Msg) (busy : Bool) (xfer : Option (Xfer Msg))
    (s : Core Msg) :
    Core Msg :=
  let s := if client.master ∧ ¬ busy then i2cMasterTmo garbage heap s else s
  let (s,rc) := addMessages client client.queued s (-devInternal)
  if rc < 0 then s
  else
    match xfer with
    | none => s
    | some xfer => afterXfer garbage client xfer s

/-- `i2c_start_xfer`: the adapter may not be locked for a master in time. -/
def i2cStartXfer (garbage : Features) (heap : Nat → Bool) (client : Client Msg) (locked busy : Bool)
    (xfer : Option (Xfer Msg))
    (s : Core Msg) : Core Msg :=
  let s := if client.master then s else i2cSlaveTmo garbage heap s
  if client.master ∧ ¬ locked then s else transfer garbage heap client busy xfer s

end BermudaOS.Dev.I2cCore
