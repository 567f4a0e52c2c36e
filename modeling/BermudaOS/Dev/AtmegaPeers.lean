import BermudaOS.Dev.AtmegaBus
import BermudaOS.Lib.Moves

/-! A transfer between two adapters: each message of the master with the next message of the slave. -/
namespace BermudaOS.Dev.AtmegaI2c
open Lib.Cells Lib.Rendezvous Lib.Moves I2cMsg

section Exchange

/-- The bytes that a slave gives for a message: those of its buffer, 0 for a buffer without bytes, and then what is read
from a bus that nobody drives. -/
def offers (y : Message) (memory : Nat → BitVec 8) (k : Nat) : BitVec 8 :=
  if k < y.length then memory (y.buff + k) else if k = 0 then 0 else 0xFF

/-- The memory of the slave after a message. -/
def taken (m y : Message) (memory peer : Nat → BitVec 8) : Nat → BitVec 8 :=
  if m.reads then peer else pasted memory peer y.buff m.buff m.length

/-- The memories of master and slave after a transfer. -/
def exchanged : List (Message × Message) → (Nat → BitVec 8) × (Nat → BitVec 8) → (Nat → BitVec 8) × (Nat → BitVec 8)
  | [],memories => memories
  | (m,y)::pairs,(memory,peer) => exchanged pairs (kept m (offers y peer) 0 memory,taken m y memory peer)

/-- The events of a transfer. -/
def dialogue : List (Message × Message) → (Nat → BitVec 8) × (Nat → BitVec 8) → List Event
  | [],_ => []
  | (m,y)::pairs,(memory,peer) => .start::.address (m.addr.setWidth 8)::(body m (offers y peer) 0 memory ++
      dialogue pairs (kept m (offers y peer) 0 memory,taken m y memory peer))

end Exchange

variable {Own Peer : Type} [DecidableEq Own] [DecidableEq Peer] {nullAddr strayAddr : Stray} {own : BitVec 8}
  {r b c : I2c Peer} {n : Node Peer} {ys ss : List Peer} {y : Peer} {m : Message} {i k : Nat} {p : Phase}

/-- The slave messages that have not been transferred, in the order of the vector. -/
def offered (r : I2c Peer) (ys : List Peer) : List Peer := ys.filter (unsent r false)

/-- The slave waits for a master, with the messages `ss`. -/
structure Attends (ys ss : List Peer) (r : I2c Peer) : Prop where
  holds : Holds r.msgVector ys
  left : offered r ys = ss
  quiet : pending r ys = []
  slaveMsg : r.slaveMsg = ss.head?
  waits : r.slaveWaits = true
  follows : Follows r = true
  ready : ss ≠ [] → r.twcr.getLsbD 6 = true

/-- What the handler leaves alone while the message `y` is transferred. The address of `y` is overwritten. -/
structure Alike (y : Peer) (r b : I2c Peer) : Prop where
  others : ∀ z, z ≠ y → b.message z = r.message z
  addressed : b.message y = {r.message y with addr := (b.message y).addr}
  msgVector : b.msgVector = r.msgVector
  slaveMsg : b.slaveMsg = r.slaveMsg
  slaveWaits : b.slaveWaits = r.slaveWaits
  signals : b.signals = r.signals

omit [DecidableEq Peer] in
theorem alike_message (message : b.message = r.message) (msgVector : b.msgVector = r.msgVector)
    (slaveMsg : b.slaveMsg = r.slaveMsg) (slaveWaits : b.slaveWaits = r.slaveWaits) (signals : b.signals = r.signals) :
    Alike y r b := ⟨fun _ _ => by rw [message],by rw [message],msgVector,slaveMsg,slaveWaits,signals⟩

omit [DecidableEq Peer] in
theorem Alike.trans (first : Alike y r b) (second : Alike y b c) : Alike y r c := by
  refine ⟨fun z other => (second.others z other).trans (first.others z other),?_,second.msgVector.trans first.msgVector,
    second.slaveMsg.trans first.slaveMsg,second.slaveWaits.trans first.slaveWaits,second.signals.trans first.signals⟩
  have whole := second.addressed
  rw [first.addressed] at whole
  exact whole

omit [DecidableEq Peer] in
theorem Alike.features (alike : Alike y r b) (z : Peer) : (b.message z).features = (r.message z).features := by
  by_cases same : z = y
  · rw [same,alike.addressed]
  · rw [alike.others z same]

omit [DecidableEq Peer] in
theorem unsent_features (same : ∀ z, (b.message z).features = (r.message z).features) (master : Bool) :
    unsent b master = unsent r master := by
  ext1 z
  rw [Bool.eq_iff_iff,unsent_iff,unsent_iff]
  simp [i2cMsgIsMaster,i2cMsgFeatures,same]

omit [DecidableEq Peer] in
theorem Alike.length (alike : Alike y r b) : (b.message y).length = (r.message y).length := by rw [alike.addressed]

omit [DecidableEq Peer] in
theorem Alike.buff (alike : Alike y r b) : (b.message y).buff = (r.message y).buff := by rw [alike.addressed]

omit [DecidableEq Peer] in
theorem follows_calm (follows : Follows b = true) : Calm b := by
  simp only [Follows,Bool.and_eq_true,Bool.not_eq_true'] at follows
  exact ⟨follows.1.2,follows.2⟩

omit [DecidableEq Peer] in
theorem ctrl_follows (calm : Calm b) (ack : Bool) : Follows (ctrl b (if ack then .I2C_ACK else .I2C_NACK)) = true ∧
    (ctrl b (if ack then .I2C_ACK else .I2C_NACK)).twcr.getLsbD 6 = ack := by
  obtain ⟨interrupt,acks,start,stop⟩ := ioctlReg_acknowledge b.twcr ack
  refine ⟨?_,acks⟩
  simp only [Follows,ctrl,interrupt,start,stop,calm.start,calm.stop]
  rfl

/-- The slave once the messages `served` are done. -/
structure Served (ys served ss : List Peer) (memory : Nat → BitVec 8) (r b : I2c Peer) : Prop where
  attends : Attends ys ss b
  memory : b.memory = memory
  done : ∀ z, b.message z = {doneAll served r.message z with addr := (b.message z).addr}
  others : ∀ z, z ∉ served → b.message z = r.message z
  signals : b.signals = r.signals ++ if ss = [] then [.slave] else []

theorem filter_done {u : I2c Peer} (done : u.message = doneAll [y] b.message) (master : Bool) :
    ys.filter (unsent u master) = (ys.filter (unsent b master)).filter fun other => !decide (other = y) := by
  rw [List.filter_filter]
  congr 1
  ext1 other
  rw [unsent_done done,Bool.and_comm]

theorem filter_first (fresh : (y::ss).Nodup) : (y::ss).filter (fun other => !decide (other = y)) = ss := by
  rw [List.filter_cons_of_neg (by simp),List.filter_eq_self]
  intro other member
  have apart : other ≠ y := fun same => (List.nodup_cons.mp fresh).1 (same ▸ member)
  simp [apart]

/-- The slave, as the end of a message leaves it. -/
def readied (ss : List Peer) (y : Peer) (b : I2c Peer) : I2c Peer :=
  {({b with lastSlaveMsg := some y} : I2c Peer).setDone y with masterMsg := none,slaveMsg := ss.head?}

theorem buffEnd_done (holds : Holds b.msgVector ys) (distinct : ys.Nodup) (left : offered b ys = y::ss) (quiet : pending b ys = [])
    (slaveMsg : b.slaveMsg = some y) (plain : b.callsBack y = false) :
    atmegaI2cSlaveBuffEnd b = if ss = [] then (ctrl ((readied ss y b).signal .slave) .I2C_NACK).setBusy false
      else ctrl (readied ss y b) .I2C_ACK := by
  have fresh : (y::ss).Nodup := left ▸ distinct.filter _
  have done : (({b with lastSlaveMsg := some y} : I2c Peer).setDone y).message = doneAll [y] b.message := by
    rw [← retired_doneAll (s := {b with masterMsg := some y}) rfl]
    rfl
  have masters : ys.find? (unsent (({b with lastSlaveMsg := some y} : I2c Peer).setDone y) true) = none := by
    rw [← List.head?_filter,filter_done done,show ys.filter (unsent b true) = [] from quiet]
    rfl
  have slaves : ys.find? (unsent (({b with lastSlaveMsg := some y} : I2c Peer).setDone y) false) = ss.head? := by
    rw [← List.head?_filter,filter_done done,show ys.filter (unsent b false) = y::ss from left,filter_first fresh]
  have looked : atmegaI2cUpdateFromIsr (({b with lastSlaveMsg := some y} : I2c Peer).setDone y) = readied ss y b := by
    rw [updateFromIsr_holds (s := ({b with lastSlaveMsg := some y} : I2c Peer).setDone y) holds,masters,slaves]
    rfl
  unfold atmegaI2cSlaveBuffEnd
  split
  · rename_i nothing
    exact absurd (nothing.symm.trans slaveMsg) (by simp)
  · rename_i other there
    obtain rfl : other = y := Option.some.inj (there.symm.trans slaveMsg)
    dsimp only
    refine (if_neg (by rw [Bool.not_eq_true]; exact plain)).trans ?_
    rw [looked]
    cases ss with
    | nil => rfl
    | cons next ss => rfl

/-- A message is done when the slave has it, or has given it. -/
theorem buffEnd_served (attends : Attends ys (y::ss) r) (distinct : ys.Nodup) (alike : Alike y r b)
    (plain : r.callsBack y = false) (calm : Calm b) : Served ys [y] ss b.memory r (atmegaI2cSlaveBuffEnd b) := by
  have holds : Holds b.msgVector ys := alike.msgVector ▸ attends.holds
  have left : offered b ys = y::ss := by rw [offered,unsent_features alike.features]; exact attends.left
  have quiet : pending b ys = [] := by rw [pending,unsent_features alike.features]; exact attends.quiet
  have slaveMsg : b.slaveMsg = some y := alike.slaveMsg.trans attends.slaveMsg
  have waits : b.slaveWaits = true := alike.slaveWaits.trans attends.waits
  have plain' : b.callsBack y = false := by rw [I2c.callsBack,alike.features]; exact plain
  have fresh : (y::ss).Nodup := left ▸ distinct.filter _
  have message : (readied ss y b).message = doneAll [y] b.message := by
    rw [← retired_doneAll (s := {b with masterMsg := some y}) rfl]
    rfl
  have offers : offered (readied ss y b) ys = ss := by
    rw [offered,filter_done message,show ys.filter (unsent b false) = y::ss from left,filter_first fresh]
  have masters : pending (readied ss y b) ys = [] := by
    rw [pending,filter_done message,show ys.filter (unsent b true) = [] from quiet]
    rfl
  have calm' : Calm (readied ss y b) := ⟨calm.start,calm.stop⟩
  have others (z : Peer) (apart : z ∉ [y]) : (readied ss y b).message z = r.message z := by
    rw [message,← alike.others z (List.mem_singleton.not.mp apart),doneAll,if_neg apart]
  have done (z : Peer) : (readied ss y b).message z =
      {doneAll [y] r.message z with addr := ((readied ss y b).message z).addr} := by
    by_cases same : z ∈ [y]
    · obtain rfl : z = y := List.mem_singleton.mp same
      rw [message,doneAll,if_pos same,doneAll,if_pos same,alike.addressed]
    · rw [others z same,doneAll,if_neg same]
  rw [buffEnd_done holds distinct left quiet slaveMsg plain']
  cases ss with
  | nil =>
    obtain ⟨follows,_⟩ := ctrl_follows (b := (readied [] y b).signal .slave) ⟨calm'.start,calm'.stop⟩ false
    rw [if_pos rfl]
    refine ⟨⟨holds,offers,masters,rfl,waits,follows,fun some => absurd rfl some⟩,rfl,done,others,?_⟩
    rw [if_pos rfl,← alike.signals]
    rfl
  | cons next ss =>
    obtain ⟨follows,ready⟩ := ctrl_follows calm' true
    rw [if_neg (List.cons_ne_nil next ss)]
    refine ⟨⟨holds,offers,masters,rfl,waits,follows,fun _ => ready⟩,rfl,done,others,?_⟩
    rw [if_neg (List.cons_ne_nil next ss),List.append_nil,← alike.signals]
    rfl

section Receive

variable {memory : Nat → BitVec 8}

/-- The slave has the first `i` bytes of a message. -/
structure Takes (m : Message) (memory : Nat → BitVec 8) (y : Peer) (r b : I2c Peer) (i : Nat) : Prop where
  alike : Alike y r b
  follows : Follows b = true
  ready : b.twcr.getLsbD 6 = true
  bufferIndex : b.bufferIndex = i
  memory : b.memory = pasted memory r.memory (r.message y).buff m.buff i

theorem slaveAddressed_takes (attends : Attends ys (y::ss) r) (filled : (r.message y).length ≠ 0) (byte : BitVec 8) :
    Takes m memory y r (slaveAddressed {r with twdr := byte}) 0 := by
  have slaveMsg : r.slaveMsg = some y := attends.slaveMsg
  have calm := follows_calm attends.follows
  obtain ⟨follows,ready⟩ := ctrl_follows (b := {r with twdr := byte,bufferIndex := 0}) ⟨calm.start,calm.stop⟩ true
  have handled : slaveAddressed {r with twdr := byte} =
      (((ctrl {r with twdr := byte,bufferIndex := 0} .I2C_ACK).setBusy true).setAddr y (byte.setWidth 16)) := by
    unfold slaveAddressed
    dsimp only
    rw [slaveMsg]
    exact if_pos filled
  rw [handled]
  refine ⟨⟨fun z other => Function.update_of_ne other ..,?_,rfl,rfl,rfl,rfl⟩,follows,ready,rfl,(pasted_zero ..).symm⟩
  simp [I2c.setAddr,I2c.setBusy,ctrl]

theorem slaveReceived_takes (slaveMsg : r.slaveMsg = some y) (word : (r.message y).length < 2^16)
    (takes : Takes m memory y r b i) (room : i < (r.message y).length) :
    Takes m memory y r (slaveReceived {b with twdr := memory (m.buff + i)}) (i + 1) := by
  obtain ⟨alike,follows,-,rfl,stored⟩ := takes
  have calm := follows_calm follows
  have there : b.slaveMsg = some y := alike.slaveMsg.trans slaveMsg
  have inside : b.bufferIndex < (b.message y).length := by rwa [alike.length]
  have filled : (b.message y).length ≠ 0 := by omega
  obtain ⟨follows',ready⟩ := ctrl_follows (b := (({b with twdr := memory (m.buff + b.bufferIndex)} : I2c Peer).store y).next)
    ⟨calm.start,calm.stop⟩ true
  have handled : slaveReceived {b with twdr := memory (m.buff + b.bufferIndex)} =
      ctrl (({b with twdr := memory (m.buff + b.bufferIndex)} : I2c Peer).store y).next .I2C_ACK := by
    unfold slaveReceived
    dsimp only
    rw [there]
    dsimp only
    rw [if_pos inside]
    exact if_pos filled
  rw [handled]
  refine ⟨alike.trans (alike_message rfl rfl rfl rfl rfl),follows',ready,?_,?_⟩
  · have fits : b.bufferIndex + 1 < 2^16 := by omega
    exact Nat.mod_eq_of_lt fits
  · rw [← pasted_succ,← stored,← alike.buff]
    rfl

omit [DecidableEq Peer] in
theorem hear_sent_takes (takes : Takes m memory y r b i) (byte : BitVec 8) :
    hear own (.sent byte) .writing b = some (⟨{b with twdr := byte},some 0x80⟩,.writing) := by
  unfold hear
  rw [if_neg (not_not.mpr takes.follows)]
  exact if_pos takes.ready

variable (own m memory) in
/-- The bytes of a message to the slave. -/
theorem takes_run (slaveMsg : r.slaveMsg = some y) (word : (r.message y).length < 2^16) (k : Nat)
    (takes : Takes m memory y r (n.after strayAddr) i) (room : i + k ≤ (r.message y).length) :
    ∃ n', hearAll strayAddr own ((List.range' (m.buff + i) k).map fun a => .sent (memory a)) (n,.writing) = some (n',.writing) ∧
      Takes m memory y r (n'.after strayAddr) (i + k) := by
  induction k generalizing n i with
  | zero => exact ⟨n,rfl,takes⟩
  | succ k ih =>
    have next := slaveReceived_takes slaveMsg word takes (by omega)
    obtain ⟨n',heard,takes'⟩ := ih (n := ⟨{n.after strayAddr with twdr := memory (m.buff + i)},some 0x80⟩) next (by omega)
    refine ⟨n',?_,?_⟩
    · rw [List.range'_succ,List.map_cons,hearAll,hear_sent_takes takes]
      exact heard
    · rwa [Nat.add_right_comm,Nat.add_assoc] at takes'

end Receive

section Transmit

/-- The byte `k` of a message is in the data register of the slave. -/
structure Gives (y : Peer) (r b : I2c Peer) (k : Nat) : Prop where
  alike : Alike y r b
  calm : Calm b
  follows : Follows b = true
  more : b.twcr.getLsbD 6 = decide (k + 1 < (r.message y).length)
  bufferIndex : k + 1 < (r.message y).length → b.bufferIndex = k + 1
  twdr : b.twdr = offers (r.message y) r.memory k
  memory : b.memory = r.memory

omit [DecidableEq Peer] in
theorem slaveTransmit_gives (slaveMsg : r.slaveMsg = some y) (word : (r.message y).length < 2^16) (alike : Alike y r b)
    (calm : Calm b) (memory : b.memory = r.memory) (index : b.bufferIndex = k) (room : k < (r.message y).length ∨ k = 0) :
    Gives y r (slaveTransmit b) k := by
  have there : b.slaveMsg = some y := alike.slaveMsg.trans slaveMsg
  by_cases inside : k < (r.message y).length
  · have next : (b.load y).next.bufferIndex = k + 1 := by
      have fits : b.bufferIndex + 1 < 2^16 := by omega
      exact (Nat.mod_eq_of_lt fits).trans (by rw [index])
    obtain ⟨follows,ready⟩ := ctrl_follows (b := (b.load y).next) ⟨calm.start,calm.stop⟩ (decide (k + 1 < (r.message y).length))
    have handled : slaveTransmit b =
        ctrl (b.load y).next (if decide (k + 1 < (r.message y).length) then .I2C_ACK else .I2C_NACK) := by
      unfold slaveTransmit
      rw [there]
      dsimp only
      rw [if_pos (by rw [alike.length,index]; omega),next]
      have same : ((b.load y).next.message y).length = (r.message y).length := alike.length
      rw [same]
      by_cases more : k + 1 < (r.message y).length <;> simp [more]
    rw [handled]
    refine ⟨alike.trans (alike_message rfl rfl rfl rfl rfl),follows_calm follows,follows,ready,fun _ => next,?_,memory⟩
    have byte : (b.load y).next.twdr = b.memory ((b.message y).buff + b.bufferIndex) := rfl
    rw [offers,if_pos inside]
    exact byte.trans (by rw [memory,alike.buff,index])
  · obtain rfl : k = 0 := by omega
    have few : ¬ 0 + 1 < (r.message y).length := by omega
    obtain ⟨follows,ready⟩ := ctrl_follows (b := {b with twdr := 0}) ⟨calm.start,calm.stop⟩ false
    have handled : slaveTransmit b = ctrl {b with twdr := 0} .I2C_NACK := by
      unfold slaveTransmit
      rw [there]
      dsimp only
      rw [if_neg (by rw [alike.length]; omega)]
    rw [handled]
    refine ⟨alike.trans (alike_message rfl rfl rfl rfl rfl),follows_calm follows,follows,?_,fun some => absurd some few,?_,memory⟩
    · rw [decide_eq_false few]
      exact ready
    · rw [offers,if_neg inside,if_pos rfl]
      rfl

omit [DecidableEq Peer] in
theorem slaveTransmit_next (slaveMsg : r.slaveMsg = some y) (word : (r.message y).length < 2^16) (gives : Gives y r b k)
    (more : k + 1 < (r.message y).length) : Gives y r (slaveTransmit b) (k + 1) :=
  slaveTransmit_gives slaveMsg word gives.alike gives.calm gives.memory (gives.bufferIndex more) (.inl more)

omit [DecidableEq Peer] in
theorem hear_received_gives (gives : Gives y r b k) (acked : Bool) :
    hear own (.received (offers (r.message y) r.memory k) acked) .reading b =
      some (⟨b,some (if acked then if decide (k + 1 < (r.message y).length) then 0xB8 else 0xC8 else 0xC0)⟩,
        if acked && decide (k + 1 < (r.message y).length) then .reading else .refused true) := by
  unfold hear
  rw [if_neg (not_not.mpr gives.follows),gives.more]
  exact if_pos gives.twdr

variable (own r y) in
/-- Behind its part the slave hears what the master reads from a bus that nobody drives. -/
theorem refused_run (attends : Attends ys ss b) (none' : n.after strayAddr = b) (wanted : Message) (first k : Nat)
    (past : (r.message y).length ≤ first) (later : first ≠ 0) :
    ∃ n', hearAll strayAddr own ((List.range' first k).map fun k =>
        .received (offers (r.message y) r.memory (0 + k)) (k + 1 < wanted.length)) (n,.refused true) = some (n',.refused true) ∧
      n'.after strayAddr = b := by
  induction k generalizing n first with
  | zero => exact ⟨n,rfl,none'⟩
  | succ k ih =>
    obtain ⟨n',heard,after⟩ := ih (n := ⟨b,none⟩) rfl (first + 1) (by omega) (by omega)
    refine ⟨n',?_,after⟩
    have high : offers (r.message y) r.memory (0 + first) = 0xFF := by
      rw [offers,Nat.zero_add,if_neg (by omega),if_neg later]
    have once : hear own (.received 0xFF (first + 1 < wanted.length)) (.refused true) b = some (⟨b,none⟩,.refused true) := by
      unfold hear
      rw [if_neg (not_not.mpr attends.follows)]
      exact if_pos rfl
    rw [List.range'_succ,List.map_cons,hearAll,high,none',once]
    exact heard

variable (own m) in
/-- The bytes of a message from the slave. -/
theorem gives_run (attends : Attends ys (y::ss) r) (distinct : ys.Nodup) (plain : r.callsBack y = false)
    (word : (r.message y).length < 2^16) (k first : Nat) (gives : Gives y r (n.after strayAddr) first)
    (rest : first + k + 1 = m.wanted) :
    ∃ n', hearAll strayAddr own ((List.range' first (k + 1)).map fun k =>
        .received (offers (r.message y) r.memory (0 + k)) (k + 1 < m.length)) (n,.reading) = some (n',.refused true) ∧
      Served ys [y] ss r.memory r (n'.after strayAddr) := by
  have wanted : m.wanted = max 1 m.length := rfl
  induction k generalizing n first with
  | zero =>
    have last : ¬ first + 1 < m.length := by omega
    refine ⟨⟨n.after strayAddr,some 0xC0⟩,?_,?_⟩
    · simp only [List.range'_one,List.map_cons,List.map_nil,hearAll,Nat.zero_add,decide_eq_false last]
      rw [hear_received_gives gives]
      rfl
    · have served := buffEnd_served attends distinct gives.alike plain gives.calm
      rwa [gives.memory] at served
  | succ k ih =>
    have goes : first + 1 < m.length := by omega
    rw [List.range'_succ,List.map_cons,hearAll,Nat.zero_add,hear_received_gives gives,decide_eq_true goes]
    by_cases more : first + 1 < (r.message y).length
    · have next := slaveTransmit_next attends.slaveMsg word gives more
      obtain ⟨n',heard,served⟩ := ih (n := ⟨n.after strayAddr,some 0xB8⟩) (first + 1) next (by omega)
      refine ⟨n',?_,served⟩
      rw [decide_eq_true more]
      exact heard
    · have served := buffEnd_served attends distinct gives.alike plain gives.calm
      rw [gives.memory] at served
      obtain ⟨n',heard,after⟩ := refused_run own r y (n := ⟨n.after strayAddr,some 0xC8⟩) served.attends rfl m
        (first + 1) (k + 1) (by omega) (by omega)
      refine ⟨n',?_,after ▸ served⟩
      rw [decide_eq_false more]
      exact heard

end Transmit

theorem doneAll_addr {message message' : Peer → Message} (done : ∀ z, message' z = {message z with addr := (message' z).addr})
    (z : Peer) : doneAll ss message' z = {doneAll ss message z with addr := (message' z).addr} := by
  by_cases member : z ∈ ss
  · rw [doneAll,if_pos member,doneAll,if_pos member,done z]
  · rw [doneAll,if_neg member,doneAll,if_neg member,done z]

theorem served_cons {served later : List Peer} {memory memory' : Nat → BitVec 8} (first : Served ys [y] ss memory r b)
    (more : ss ≠ []) (rest : Served ys served later memory' b c) : Served ys (y::served) later memory' r c := by
  refine ⟨rest.attends,rest.memory,fun z => ?_,fun z other => ?_,?_⟩
  · have whole := rest.done z
    rw [doneAll_addr first.done z,doneAll_cons] at whole
    exact whole
  · rw [List.mem_cons,not_or] at other
    rw [rest.others z other.2,first.others z (List.mem_singleton.not.mpr other.1)]
  · rw [rest.signals,first.signals,if_neg more,List.append_nil]

/-- A message of the master that a message of the slave is there for. -/
structure Fits (own : BitVec 8) (m y : Message) : Prop where
  address : Addresses own (m.addr.setWidth 8) = true
  plain : (m.features &&& I2C_MSG_CALL_BACK_MASK != 0) = false
  plain' : (y.features &&& I2C_MSG_CALL_BACK_MASK != 0) = false
  word : m.length < 2^16
  word' : y.length < 2^16
  room : m.reads = false → m.length ≤ y.length ∧ y.length ≠ 0

theorem hearAll_append (es fs : List Event) (x : Node Peer × Phase) :
    hearAll strayAddr own (es ++ fs) x = (hearAll strayAddr own es x).bind (hearAll strayAddr own fs) := by
  induction es generalizing x with
  | nil => rfl
  | cons e es ih =>
    obtain ⟨n,p⟩ := x
    rw [List.cons_append,hearAll,hearAll,Option.bind_assoc]
    congr 1
    ext1 x
    exact ih x

omit [DecidableEq Peer] in
theorem hear_addressed (attends : Attends ys (y::ss) r) (address : Addresses own (m.addr.setWidth 8) = true) :
    hear own (.address (m.addr.setWidth 8)) .started r =
      some (⟨{r with twdr := m.addr.setWidth 8},some (if m.reads then 0xA8 else 0x60)⟩,if m.reads then .reading else .writing) := by
  have bit : (m.addr.setWidth 8).getLsbD 0 = m.reads := by simp [Message.reads]
  unfold hear
  rw [← bit,if_neg (not_not.mpr attends.follows)]
  exact if_pos (by rw [attends.ready (List.cons_ne_nil y ss),address]; rfl)

/-- The part of the slave in a message. -/
theorem slave_message (attends : Attends ys (y::ss) r) (distinct : ys.Nodup) (fits : Fits own m (r.message y))
    (after : n.after strayAddr = r) (memory : Nat → BitVec 8) :
    ∃ n' p', hearAll strayAddr own (.address (m.addr.setWidth 8)::body m (offers (r.message y) r.memory) 0 memory) (n,.started) =
        some (n',p') ∧ Follows (n'.after strayAddr) = true ∧
      Served ys [y] ss (taken m (r.message y) memory r.memory) r ((conditioned p' (n'.after strayAddr)).after strayAddr) := by
  have plain : r.callsBack y = false := fits.plain'
  rw [hearAll,after,hear_addressed attends fits.address]
  cases reads : m.reads with
  | false =>
    obtain ⟨room,filled⟩ := fits.room reads
    obtain ⟨n',heard,takes⟩ := takes_run own m memory attends.slaveMsg fits.word' m.length
      (n := ⟨{r with twdr := m.addr.setWidth 8},some 0x60⟩) (slaveAddressed_takes attends filled _) (by omega)
    refine ⟨n',.writing,?_,takes.follows,?_⟩
    · simp only [body,reads,Bool.false_eq_true,if_false]
      exact heard
    · have waits : (n'.after strayAddr).slaveWaits = true := takes.alike.slaveWaits.trans attends.waits
      have handled : (conditioned .writing (n'.after strayAddr)).after strayAddr =
          atmegaI2cSlaveBuffEnd (n'.after strayAddr) := if_neg (not_not.mpr waits)
      have served := buffEnd_served attends distinct takes.alike plain (follows_calm takes.follows)
      rw [takes.memory,Nat.zero_add] at served
      simp only [taken,reads,Bool.false_eq_true,if_false]
      exact handled.symm ▸ served
  | true =>
    have wanted : m.wanted = m.wanted - 1 + 1 := by unfold Message.wanted; omega
    have calm := follows_calm attends.follows
    have gives := slaveTransmit_gives (k := 0) attends.slaveMsg fits.word'
      (b := {({r with twdr := m.addr.setWidth 8} : I2c Peer).setBusy true with bufferIndex := 0})
      (alike_message rfl rfl rfl rfl rfl) ⟨calm.start,calm.stop⟩ rfl rfl (.inr rfl)
    obtain ⟨n',heard,served⟩ := gives_run own m attends distinct plain fits.word' (m.wanted - 1) 0
      (n := ⟨{r with twdr := m.addr.setWidth 8},some 0xA8⟩) gives (by omega)
    refine ⟨n',.refused true,?_,served.attends.follows,?_⟩
    · simp only [body,reads,if_true]
      rw [wanted]
      exact heard
    · simp only [taken,reads,if_true]
      exact served

section Transfer

variable {s u v : I2c Own} {xs : List Own} {status : Nat} {trace : List Event} {a : Own}

/-- What a master has at the end of a transfer of the messages `ms`. -/
structure Transferred (ms : List Own) (memory : Nat → BitVec 8) (s t : I2c Own) : Prop where
  message : t.message = doneAll ms s.message
  memory : t.memory = memory
  signals : t.signals = s.signals ++ [.master]
  idle : t.busy = false
  calm : Calm t

variable (own trace) in
omit [DecidableEq Own] [DecidableEq Peer] in
theorem meet_stop {n : Node Peer} {reg : BitVec 8} {cfg : Ctrl} (register : v.twcr = ioctlReg reg cfg)
    (stops : cfg = .I2C_STOP_ACK ∨ cfg = .I2C_STOP_NACK) (started : reg.getLsbD 5 = false) (follows : Follows n.i2c = true) (p : Phase) :
    meet own ⟨v,none⟩ n ⟨p,trace⟩ =
        some (⟨{v with twcr := v.twcr &&& ~~~TWSTO},none⟩,conditioned p n.i2c,⟨.idle,trace ++ [.stop]⟩) ∧
      Calm {v with twcr := v.twcr &&& ~~~TWSTO} := by
  obtain ⟨bit,start,stop⟩ := ioctlReg_stop reg cfg stops
  have both : ¬ (¬ v.twcr.getLsbD 7 = true ∨ ¬ Follows n.i2c = true) := by
    rw [not_or,not_not,not_not,register]
    exact ⟨bit,follows⟩
  have unstarted : v.twcr.getLsbD 5 = false := by rw [register,start,started]
  constructor
  · unfold meet
    dsimp only
    rw [if_neg both,if_neg (Bool.not_eq_true _ ▸ unstarted),if_pos (by rw [register]; exact stop)]
  · constructor
    · have cleared : (v.twcr &&& ~~~TWSTO).getLsbD 5 = (v.twcr.getLsbD 5 && (~~~TWSTO).getLsbD 5) := BitVec.getLsbD_and ..
      exact cleared.trans (by rw [unstarted]; rfl)
    · have cleared : (v.twcr &&& ~~~TWSTO).getLsbD 4 = (v.twcr.getLsbD 4 && (~~~TWSTO).getLsbD 4) := BitVec.getLsbD_and ..
      exact cleared.trans (Bool.and_false _)

variable (own trace) in
omit [DecidableEq Own] [DecidableEq Peer] in
/-- The handler of the last message lets the master stop. -/
theorem meet_last {n : Node Peer} (holds : Holds u.msgVector xs) (calm : Calm u) (signals : u.signals = s.signals)
    (left : pending u xs = []) (follows : Follows n.i2c = true) (p : Phase) :
    ∃ t, meet own ⟨masterEnd u,none⟩ n ⟨p,trace⟩ = some (⟨t,none⟩,conditioned p n.i2c,⟨.idle,trace ++ [.stop]⟩) ∧
      t.message = u.message ∧ t.memory = u.memory ∧ t.signals = s.signals ++ [.master] ∧ t.busy = false ∧ Calm t := by
  obtain ⟨cfg,stops,after⟩ := masterEnd_last holds (by rw [pending_find,left]; rfl)
  generalize made : ((ctrl (lookedUp xs u) cfg).setBusy false).signal .master = v at after
  obtain ⟨register,more,message,memory,idle⟩ : v.twcr = ioctlReg u.twcr cfg ∧ v.signals = u.signals ++ [.master] ∧
      v.message = u.message ∧ v.memory = u.memory ∧ v.busy = false := by
    rw [← made]
    exact ⟨rfl,rfl,rfl,rfl,rfl⟩
  obtain ⟨met,calm'⟩ := meet_stop own trace register stops calm.start follows p
  rw [after]
  exact ⟨_,met,message,memory,by rw [more,signals],idle,calm'⟩

/-- Each message of the master with one of the slave. -/
def paired (s : I2c Own) (ms : List Own) (r : I2c Peer) (ss : List Peer) : List (Message × Message) :=
  (ms.map s.message).zip (ss.map r.message)

theorem body_unsignalled (m : Message) (incoming : Nat → BitVec 8) (memory : Nat → BitVec 8) (queue : Queue) :
    .signal queue ∉ .address (m.addr.setWidth 8)::body m incoming 0 memory := by
  unfold body
  split <;> simp

variable (nullAddr strayAddr own trace) in
/-- A message on the bus, from the start condition before it to the interrupt that ends it at the master. -/
theorem message_rounds (starts : status = 0x08 ∨ status = 0x10) (installed : s.masterMsg = some a) (distinct : ys.Nodup)
    (attends : Attends ys (y::ss) r) (after : n.after strayAddr = r) (fits : Fits own (s.message a) (r.message y)) :
    ∃ t last u n' p', Rounds (peers nullAddr strayAddr own) (1 + (body (s.message a) (offers (r.message y) r.memory) 0 s.memory).length)
        (⟨s,some status⟩,n,⟨.started,trace ++ [.start]⟩)
        (⟨t,some last⟩,n',⟨p',trace ++ conversation (offers (r.message y) r.memory) [s.message a] 0 s.memory⟩) ∧
      Agrees last p' ∧ twiStc nullAddr last t = masterEnd u ∧ t.signals = s.signals ∧
      Finished nullAddr (offers (r.message y) r.memory) 0 s u ∧ Follows (n'.after strayAddr) = true ∧
      Served ys [y] ss (taken (s.message a) (r.message y) s.memory r.memory) r
        ((conditioned p' (n'.after strayAddr)).after strayAddr) := by
  have record : onBus nullAddr s = s.message a := onBus_message installed
  have plain : Plain s := message_plain installed fits.plain
  obtain ⟨t,last,u,⟨c,led⟩,ends,signals,finished⟩ := message_run (offers (r.message y) r.memory) 0 trace starts plain
    (record ▸ fits.word)
  have whole : trace ++ conversation (offers (r.message y) r.memory) [onBus nullAddr s] 0 s.memory = (trace ++ [.start]) ++
      .address ((s.message a).addr.setWidth 8)::body (s.message a) (offers (r.message y) r.memory) 0 s.memory := by
    simp [conversation,record]
  rw [whole] at led
  obtain ⟨n',p',heard,follows,served⟩ := slave_message attends distinct fits after s.memory
  obtain ⟨rounds,agrees⟩ := cycles_rounds c (.inl ⟨starts,rfl⟩) led (body_unsignalled _ _ s.memory) heard
  rw [← whole,record,List.length_cons,Nat.add_comm] at rounds
  exact ⟨t,last,u,n',p',rounds,agrees,ends,signals,finished,follows,served⟩

theorem transferred_cons {ms : List Own} {memory : Nat → BitVec 8} {t : I2c Own} (done : u.message = doneAll [a] s.message)
    (signals : u.signals = s.signals) (rest : Transferred ms memory u t) : Transferred (a::ms) memory s t :=
  ⟨by rw [rest.message,done,doneAll_cons],rest.memory,by rw [rest.signals,signals],rest.idle,rest.calm⟩

variable (nullAddr strayAddr own trace) in
/-- A transfer, by induction on the messages behind the one on the bus. -/
theorem transfer_rounds (ms : List Own) (distinct : xs.Nodup) (holds : Holds s.msgVector xs) (starts : status = 0x08 ∨ status = 0x10)
    (left : pending s xs = a::ms) (installed : s.masterMsg = some a) (distinct' : ys.Nodup) (attends : Attends ys ss r)
    (after : n.after strayAddr = r) (enough : ms.length < ss.length)
    (fits : ∀ pair ∈ paired s (a::ms) r ss, Fits own pair.1 pair.2) :
    ∃ t n', Rounds (peers nullAddr strayAddr own) (dialogue (paired s (a::ms) r ss) (s.memory,r.memory)).length
        (⟨s,some status⟩,n,⟨.started,trace ++ [.start]⟩)
        (⟨t,none⟩,n',⟨.idle,trace ++ (dialogue (paired s (a::ms) r ss) (s.memory,r.memory) ++ [.stop])⟩) ∧
      Transferred (a::ms) (exchanged (paired s (a::ms) r ss) (s.memory,r.memory)).1 s t ∧
      Served ys (ss.take (ms.length + 1)) (ss.drop (ms.length + 1)) (exchanged (paired s (a::ms) r ss) (s.memory,r.memory)).2 r
        (n'.after strayAddr) := by
  induction ms generalizing s a status r n ss trace with
  | nil =>
    cases ss with
    | nil => exact absurd enough (Nat.not_lt_zero _)
    | cons y ss =>
      have pairs : paired s [a] r (y::ss) = [(s.message a,r.message y)] := rfl
      rw [pairs] at fits ⊢
      obtain ⟨t,last,u,n',p',rounds,-,ends,-,⟨⟨message,vector,signals,calm⟩,memory⟩,follows,served⟩ :=
        message_rounds nullAddr strayAddr own trace starts installed distinct' attends after (fits _ (List.mem_singleton.mpr rfl))
      have record : onBus nullAddr s = s.message a := onBus_message installed
      have retires := message.trans (retired_doneAll installed)
      obtain ⟨v,met,message',memory',signals',idle,calm'⟩ := meet_last own
        (trace ++ conversation (offers (r.message y) r.memory) [s.message a] 0 s.memory) (n := settled (Node.handle strayAddr) n')
        (vector ▸ holds) calm signals (pending_done retires distinct left) follows p'
      rw [← ends] at met
      have whole := rounds.snoc (show (peers nullAddr strayAddr own).round _ = _ from met)
      have events : trace ++ conversation (offers (r.message y) r.memory) [s.message a] 0 s.memory ++ [.stop] =
          trace ++ (dialogue [(s.message a,r.message y)] (s.memory,r.memory) ++ [.stop]) := by
        simp [conversation,dialogue]
      have count : 1 + (body (s.message a) (offers (r.message y) r.memory) 0 s.memory).length + 1 =
          (dialogue [(s.message a,r.message y)] (s.memory,r.memory)).length := by
        simp [dialogue]
        omega
      rw [events,count] at whole
      rw [record] at memory
      exact ⟨v,_,whole,⟨message'.trans retires,memory'.trans memory,signals',idle,calm'⟩,served⟩
  | cons next ms ih =>
    cases ss with
    | nil => exact absurd enough (Nat.not_lt_zero _)
    | cons y ss =>
      have pairs : paired s (a::next::ms) r (y::ss) = (s.message a,r.message y)::paired s (next::ms) r ss := rfl
      rw [pairs] at fits ⊢
      obtain ⟨t,last,u,n',p',rounds,agrees,ends,signals,⟨⟨message,vector,signals',-⟩,memory⟩,follows,served⟩ :=
        message_rounds nullAddr strayAddr own trace starts installed distinct' attends after (fits _ List.mem_cons_self)
      have record : onBus nullAddr s = s.message a := onBus_message installed
      have retires := message.trans (retired_doneAll installed)
      have left' : pending u xs = next::ms := pending_done retires distinct left
      rw [← vector] at holds
      obtain ⟨v,cycled,message',vector',memory',signals₂,installed'⟩ := next_cycle (offers (r.message y) r.memory) 0
        (trace ++ conversation (offers (r.message y) r.memory) [s.message a] 0 s.memory)
        holds ends (signals'.trans signals.symm) (by rw [pending_find,left']; rfl)
      have heard : hearAll strayAddr own [.start] (n',p') = some (conditioned p' (n'.after strayAddr),.started) := by
        simp [hearAll,hear,follows]
      obtain ⟨restart,-⟩ := cycles_rounds 1 agrees cycled (by simp) heard
      have done : v.message = doneAll [a] s.message := message'.trans retires
      have fresh : (a::next::ms).Nodup := left ▸ distinct.filter _
      have fresh' : (y::ss).Nodup := attends.left ▸ distinct'.filter _
      have others : (next::ms).map v.message = (next::ms).map s.message := by
        apply List.map_congr_left
        intro m member
        have apart : m ≠ a := fun same => (List.nodup_cons.mp fresh).1 (same ▸ member)
        simp [done,doneAll,apart]
      generalize arrived : conditioned p' (n'.after strayAddr) = node at served restart
      have others' : ss.map (node.after strayAddr).message = ss.map r.message := by
        apply List.map_congr_left
        intro z member
        have apart : z ≠ y := fun same => (List.nodup_cons.mp fresh').1 (same ▸ member)
        exact served.others z (List.mem_singleton.not.mpr apart)
      have same : paired v (next::ms) (node.after strayAddr) ss = paired s (next::ms) r ss := by
        rw [paired,others,others',paired]
      rw [← vector'] at holds
      obtain ⟨w,n₂,rounds',transferred,served'⟩ := ih
        (trace ++ conversation (offers (r.message y) r.memory) [s.message a] 0 s.memory) holds (.inr rfl)
        (pending_done done distinct left) installed' served.attends rfl (Nat.lt_of_succ_lt_succ enough)
        (by rw [same]; exact fun pair member => fits pair (List.mem_cons_of_mem _ member))
      rw [same,served.memory,memory',memory,record] at rounds' transferred served'
      have more : ss ≠ [] := by
        rintro rfl
        exact absurd enough (by simp)
      refine ⟨w,n₂,?_,transferred_cons done (signals₂.trans signals') transferred,served_cons served more served'⟩
      have whole := (rounds.append restart).append rounds'
      have events : trace ++ conversation (offers (r.message y) r.memory) [s.message a] 0 s.memory ++
            (dialogue (paired s (next::ms) r ss) (kept (s.message a) (offers (r.message y) r.memory) 0 s.memory,
              taken (s.message a) (r.message y) s.memory r.memory) ++ [.stop]) =
          trace ++ (dialogue ((s.message a,r.message y)::paired s (next::ms) r ss) (s.memory,r.memory) ++ [.stop]) := by
        simp [conversation,dialogue]
      have count : 1 + (body (s.message a) (offers (r.message y) r.memory) 0 s.memory).length + [Event.start].length +
            (dialogue (paired s (next::ms) r ss) (kept (s.message a) (offers (r.message y) r.memory) 0 s.memory,
              taken (s.message a) (r.message y) s.memory r.memory)).length =
          (dialogue ((s.message a,r.message y)::paired s (next::ms) r ss) (s.memory,r.memory)).length := by
        simp [dialogue]
        omega
      rw [events,count] at whole
      exact whole

omit [DecidableEq Own] in
theorem settled_after (n : Node Peer) : settled (Node.handle strayAddr) n = ⟨n.after strayAddr,none⟩ := by
  obtain ⟨s,status⟩ := n
  cases status with
  | none => rfl
  | some status => rfl

variable (own trace) in
omit [DecidableEq Own] [DecidableEq Peer] in
theorem meet_stopped {t : I2c Own} {n : Node Peer} {status : Option Nat} (calm : Calm t) :
    meet own ⟨t,status⟩ n ⟨.idle,trace⟩ = none := by
  unfold meet
  dsimp only
  split
  · rfl
  · rw [if_neg (Bool.not_eq_true _ ▸ calm.start),if_neg (Bool.not_eq_true _ ▸ calm.stop)]

theorem start_round (starts : s.twcr.getLsbD 7 = true ∧ s.twcr.getLsbD 5 = true) (follows : Follows r = true) :
    (peers nullAddr strayAddr own).round (⟨s,none⟩,⟨r,none⟩,⟨.idle,[]⟩) = some (⟨s,some 0x08⟩,⟨r,none⟩,⟨.started,[.start]⟩) := by
  have both : ¬ (¬ s.twcr.getLsbD 7 = true ∨ ¬ Follows r = true) := by
    rw [not_or,not_not,not_not]
    exact ⟨starts.1,follows⟩
  have met : (peers nullAddr strayAddr own).round (⟨s,none⟩,⟨r,none⟩,⟨.idle,[]⟩) = meet own ⟨s,none⟩ ⟨r,none⟩ ⟨.idle,[]⟩ := rfl
  rw [met]
  unfold meet
  dsimp only
  rw [if_neg both,if_pos starts.2,if_pos rfl]
  rfl

/-- Whatever the order in which the two handlers run, a transfer ends, and in one state only: the bytes of each message
of the master are where the slave's next message has its buffer, or the other way about, all of these messages are done,
and the threads that wait for them are signalled. -/
theorem transfer_ends (nullAddr strayAddr : Stray) (own : BitVec 8) (s : I2c Own) (r : I2c Peer) (xs : List Own) (ys : List Peer)
    (holds : Holds s.msgVector xs) (distinct : xs.Nodup) (installed : s.masterMsg = xs.find? (unsent s true))
    (waiting : pending s xs ≠ []) (starts : s.twcr.getLsbD 7 = true ∧ s.twcr.getLsbD 5 = true)
    (distinct' : ys.Nodup) (attends : Attends ys (offered r ys) r) (enough : (pending s xs).length ≤ (offered r ys).length)
    (fits : ∀ pair ∈ paired s (pending s xs) r (offered r ys), Fits own pair.1 pair.2) :
    ∃ t u, Transferred (pending s xs) (exchanged (paired s (pending s xs) r (offered r ys)) (s.memory,r.memory)).1 s t ∧
      Served ys ((offered r ys).take (pending s xs).length) ((offered r ys).drop (pending s xs).length)
        (exchanged (paired s (pending s xs) r (offered r ys)) (s.memory,r.memory)).2 r u ∧
      ∀ n state, Run (peers nullAddr strayAddr own) (⟨s,none⟩,⟨r,none⟩,⟨.idle,[]⟩) n state →
        n ≤ 3 * ((dialogue (paired s (pending s xs) r (offered r ys)) (s.memory,r.memory)).length + 1) + 2 ∧
          ((∀ next, ¬ Step (peers nullAddr strayAddr own) state next) → state = (⟨t,none⟩,⟨u,none⟩,
            ⟨.idle,dialogue (paired s (pending s xs) r (offered r ys)) (s.memory,r.memory) ++ [.stop]⟩)) := by
  cases left : pending s xs with
  | nil => exact absurd left waiting
  | cons a ms =>
    rw [left] at enough fits
    rw [pending_find,left] at installed
    obtain ⟨t,n',rounds,transferred,served⟩ := transfer_rounds nullAddr strayAddr own [] ms distinct holds (.inl rfl) left
      installed distinct' attends (n := ⟨r,none⟩) rfl enough fits
    rw [List.nil_append,List.nil_append] at rounds
    have last : (peers nullAddr strayAddr own).round (⟨t,none⟩,n',⟨.idle,dialogue (paired s (a::ms) r (offered r ys))
        (s.memory,r.memory) ++ [.stop]⟩) = none := meet_stopped own _ transferred.calm
    refine ⟨t,n'.after strayAddr,transferred,served,fun n state run => ?_⟩
    obtain ⟨short,ends⟩ := run_ends (peers_brief nullAddr strayAddr own) (.round (start_round starts attends.follows) rounds) last run
    refine ⟨short,fun stuck => (ends stuck).trans ?_⟩
    rw [Parties.settle,← settled_after]
    rfl

end Transfer

/-- A slave with a message of four bytes and one of two. -/
def listening : I2c Nat where
  message
    | 3 => ⟨0x40,4,0x10,0x02⟩
    | _ => ⟨0x50,2,0x10,0x02⟩
  memory a := (a + 0x80 : Nat)
  msgVector := ⟨2,10,some fun i => [3,4][i]?,10,false,false⟩
  busy := false
  error := false
  bufferIndex := 0
  masterMsg := none
  lastMasterMsg := none
  slaveMsg := some 3
  lastSlaveMsg := none
  twcr := ioctlReg 0 .I2C_ACK
  twdr := 0
  slaveWaits := true
  accesses := []
  signals := []

theorem transfer_ends_listening : ∃ t u : I2c Nat, t.memory 0x21 = 0xD1 ∧ u.memory 0x41 = 0x11 ∧ u.signals = [.slave] ∧
    ∀ n state, Run (peers 0 0 0xA0) (⟨chained,none⟩,⟨listening,none⟩,⟨.idle,[]⟩) n state →
      n ≤ 29 ∧ ((∀ next, ¬ Step (peers 0 0 0xA0) state next) → state = (⟨t,none⟩,⟨u,none⟩,⟨.idle,
        [.start,.address 0xA0,.sent 0x10,.sent 0x11,.start,.address 0xA1,.received 0xD0 true,.received 0xD1 false,.stop]⟩)) := by
  have filled : Filled (fun i => [1,2,0][i]?) [1,2,0] := fun _ _ => rfl
  have sound : Sound chained.msgVector fun i => [1,2,0][i]? := ⟨rfl,by decide,by decide,rfl⟩
  have filled' : Filled (fun i => [3,4][i]?) [3,4] := fun _ _ => rfl
  have sound' : Sound listening.msgVector fun i => [3,4][i]? := ⟨rfl,by decide,by decide,rfl⟩
  have attends : Attends [3,4] (offered listening [3,4]) listening :=
    ⟨⟨⟨_,sound',filled'⟩,rfl,by decide⟩,rfl,by decide,by decide,rfl,by decide,by decide⟩
  have pairs : paired chained (pending chained [1,2,0]) listening (offered listening [3,4]) =
      [(⟨0x10,2,0xA0,0x0C⟩,⟨0x40,4,0x10,0x02⟩),(⟨0x20,2,0xA1,0x04⟩,⟨0x50,2,0x10,0x02⟩)] := rfl
  have fits : ∀ pair ∈ paired chained (pending chained [1,2,0]) listening (offered listening [3,4]), Fits 0xA0 pair.1 pair.2 := by
    rw [pairs]
    intro pair member
    simp only [List.mem_cons,List.not_mem_nil,or_false] at member
    obtain rfl | rfl := member
    · exact ⟨by decide,by decide,by decide,by decide,by decide,by decide⟩
    · exact ⟨by decide,by decide,by decide,by decide,by decide,by decide⟩
  obtain ⟨t,u,transferred,served,runs⟩ := transfer_ends 0 0 0xA0 chained listening [1,2,0] [3,4]
    ⟨⟨_,sound,filled⟩,rfl,by decide⟩ (by decide) (by decide) (by decide) ⟨by decide,by decide⟩ (by decide) attends (by decide) fits
  exact ⟨t,u,by rw [transferred.memory]; rfl,by rw [served.memory]; rfl,by rw [served.signals]; rfl,runs⟩

end BermudaOS.Dev.AtmegaI2c
