import BermudaOS.Dev.AtmegaMaster

/-! The chain of master messages: one after the other, each exactly once, and a stop condition behind the last. -/
namespace BermudaOS.Dev.AtmegaI2c
open Lib.Cells I2cMsg

variable {Msg : Type} [DecidableEq Msg] {nullAddr : Stray} {incoming : Nat → BitVec 8} {s t u : I2c Msg}
  {status arrived : Nat} {trace : List Event} {xs : List Msg}

omit [DecidableEq Msg] in
theorem masterSent_masterEnd (s : I2c Msg) : masterSent s = masterEnd s := by
  unfold masterSent masterEnd
  dsimp only
  split
  · rfl
  · split <;> rfl

/-- The messages once the one on the bus is done. -/
def retired (s : I2c Msg) : Msg → Message := s.masterMsg.elim s.message fun msg => (s.setDone msg).message

/-- What is left to do is the end of the message. -/
structure Ended (s u : I2c Msg) : Prop where
  message : u.message = retired s
  msgVector : u.msgVector = s.msgVector
  signals : u.signals = s.signals
  calm : Calm u

/-- The message on the bus does not call back. -/
def Plain (s : I2c Msg) : Prop := ∀ msg, s.masterMsg = some msg → s.callsBack msg = false

/-- The message with its `DONE` flag. -/
def finish (s : I2c Msg) (msg : Msg) : I2c Msg := ({s with lastMasterMsg := some msg} : I2c Msg).setDone msg

theorem masterTransmit_full {msg : Msg} (installed : s.masterMsg = some msg) (full : (s.message msg).length ≤ s.bufferIndex)
    (quiet : s.callsBack msg = false) : masterTransmit s = masterEnd (finish s msg) := by
  rw [← masterSent_masterEnd]
  unfold masterTransmit
  split
  · rename_i other there
    obtain rfl : other = msg := Option.some.inj (there.symm.trans installed)
    rw [if_neg (by omega)]
    exact if_neg (by rw [Bool.not_eq_true]; exact quiet)
  · rename_i nothing
    exact absurd (nothing.symm.trans installed) (by simp)

theorem masterReceivedLast_last {msg : Msg} (installed : s.masterMsg = some msg) (quiet : s.callsBack msg = false) :
    masterReceivedLast s =
      masterEnd (finish (if s.bufferIndex < (s.message msg).length then s.store msg else s) msg) := by
  unfold masterReceivedLast
  split
  · rename_i other there
    obtain rfl : other = msg := Option.some.inj (there.symm.trans installed)
    refine if_neg ?_
    rw [Bool.not_eq_true]
    split <;> exact quiet
  · rename_i nothing
    exact absurd (nothing.symm.trans installed) (by simp)

theorem finish_ended {msg : Msg} (installed : s.masterMsg = some msg) (calm : Calm s) : Ended s (finish s msg) :=
  ⟨by rw [retired,installed]; rfl,rfl,rfl,⟨calm.start,calm.stop⟩⟩

omit [DecidableEq Msg] in
theorem onBus_message {msg : Msg} (installed : s.masterMsg = some msg) : onBus nullAddr s = s.message msg := by
  rw [onBus,installed]
  rfl

theorem nothing_ended (nothing : s.masterMsg = none) (calm : Calm s) : Ended s s :=
  ⟨by rw [retired,nothing]; rfl,rfl,rfl,calm⟩

theorem transmit_end (sends : status = 0x18 ∨ status = 0x28) (calm : Calm s) (plain : Plain s)
    (full : s.bufferIndex = (onBus nullAddr s).length) :
    ∃ u, twiStc nullAddr status s = masterEnd u ∧ Ended s u ∧ u.memory = s.memory := by
  rw [twiStc_transmit sends]
  obtain nothing | ⟨msg,installed⟩ := Option.eq_none_or_eq_some s.masterMsg
  · refine ⟨s,?_,nothing_ended nothing calm,rfl⟩
    rw [← masterSent_masterEnd,masterTransmit,nothing]
  · rw [onBus_message installed] at full
    exact ⟨finish s msg,masterTransmit_full installed (Nat.le_of_eq full.symm) (plain msg installed),
      finish_ended installed calm,rfl⟩

omit [DecidableEq Msg] in
theorem Same.plain (same : Same s t) (plain : Plain s) : Plain t := by
  intro msg installed
  rw [same.masterMsg] at installed
  have quiet := plain msg installed
  rwa [I2c.callsBack,← same.message] at quiet

theorem receive_end (received : Received nullAddr incoming arrived s t ((onBus nullAddr s).wanted - 1)) (plain : Plain s) :
    ∃ u, twiStc nullAddr 0x58 t = masterEnd u ∧ Ended t u ∧
      u.memory = stored (onBus nullAddr s) incoming arrived s.memory (onBus nullAddr s).length := by
  obtain ⟨same,calm,index,twdr,memory⟩ := received
  have record := same.onBus nullAddr
  have quiet := same.plain plain
  have wanted : (onBus nullAddr s).wanted = max 1 (onBus nullAddr s).length := rfl
  have status : twiStc nullAddr 0x58 t = masterReceivedLast t := rfl
  rw [status]
  obtain nothing | ⟨msg,installed⟩ := Option.eq_none_or_eq_some t.masterMsg
  · have empty : (onBus nullAddr s).length = 0 := by rw [← record,onBus,nothing]; rfl
    refine ⟨t,by rw [masterReceivedLast,nothing],nothing_ended nothing calm,?_⟩
    rw [memory,wanted,empty]
    rfl
  · have message : onBus nullAddr s = t.message msg := record.symm.trans (onBus_message installed)
    rw [masterReceivedLast_last installed (quiet msg installed),← message]
    by_cases last : t.bufferIndex < (onBus nullAddr s).length
    · have stores : (finish (t.store msg) msg).memory =
          Function.update t.memory ((t.message msg).buff + t.bufferIndex) t.twdr := rfl
      have whole : (onBus nullAddr s).wanted - 1 + 1 = (onBus nullAddr s).length := by omega
      have ended := finish_ended (s := t.store msg) installed ⟨calm.start,calm.stop⟩
      refine ⟨finish (t.store msg) msg,by rw [if_pos last],⟨ended.message,ended.msgVector,ended.signals,ended.calm⟩,?_⟩
      rw [stores,← message,twdr,memory,index,stored_succ,whole]
    · have empty : (onBus nullAddr s).wanted - 1 = (onBus nullAddr s).length := by omega
      exact ⟨finish t msg,by rw [if_neg last],finish_ended installed calm,memory.trans (congrArg _ empty)⟩

/-- The bytes of a message have been on the bus. -/
structure Finished (nullAddr : Stray) (incoming : Nat → BitVec 8) (arrived : Nat) (s u : I2c Msg) : Prop where
  ended : Ended s u
  memory : u.memory = kept (onBus nullAddr s) incoming arrived s.memory

theorem Same.ended (same : Same s t) (ended : Ended t u) : Ended s u := by
  refine ⟨?_,ended.msgVector.trans same.msgVector,ended.signals.trans same.signals,ended.calm⟩
  rw [ended.message,retired,retired,same.masterMsg,same.message]
  cases s.masterMsg with
  | none => rfl
  | some msg =>
    simp only [Option.elim_some,I2c.setDone,I2c.setFeatures,same.message]

variable (incoming arrived trace) in
/-- A message, from its start condition to the interrupt that ends it. -/
theorem message_run (starts : status = 0x08 ∨ status = 0x10) (plain : Plain s) (word : (onBus nullAddr s).length < 2^16) :
    ∃ t last u, Leads nullAddr incoming ⟨s,some status,arrived,trace ++ [.start]⟩ ⟨t,some last,consumed (onBus nullAddr s) arrived,
        trace ++ conversation incoming [onBus nullAddr s] arrived s.memory⟩ ∧
      twiStc nullAddr last t = masterEnd u ∧ t.signals = s.signals ∧ Finished nullAddr incoming arrived s u := by
  have whole : trace ++ conversation incoming [onBus nullAddr s] arrived s.memory = (trace ++ [.start]) ++
      .address ((onBus nullAddr s).addr.setWidth 8)::body (onBus nullAddr s) incoming arrived s.memory := by
    simp [conversation]
  rw [whole]
  generalize trace ++ [.start] = trace
  have begun := start_cycle nullAddr incoming s arrived trace starts
  have same : Same s (masterStart nullAddr s s.twcr) := ⟨rfl,rfl,rfl,rfl⟩
  have record := same.onBus nullAddr
  have calm : Calm (masterStart nullAddr s s.twcr) := masterStart_calm
  cases reads : (onBus nullAddr s).reads with
  | false =>
    obtain ⟨t,last,led,lasts,same',calm',memory,index⟩ := transmit_run incoming arrived
      (trace ++ [.address ((onBus nullAddr s).addr.setWidth 8)]) (onBus nullAddr s).length (.inl rfl) calm
      (by rw [record]; exact Nat.zero_add _) (by rwa [record])
    have whole := same.trans same'
    have record' := whole.onBus nullAddr
    obtain ⟨u,ends,ended,memory'⟩ := transmit_end lasts calm' (whole.plain plain)
      (by rw [index,record,record'])
    refine ⟨t,last,u,?_,ends,whole.signals,whole.ended ended,?_⟩
    · rw [reads] at begun
      rw [record,List.append_assoc] at led
      simp only [consumed,body,reads,Bool.false_eq_true,if_false]
      exact .cycle begun led
    · simp only [kept,reads,Bool.false_eq_true,if_false]
      exact memory'.trans memory
  | true =>
    have wanted : (onBus nullAddr s).wanted = (onBus nullAddr s).wanted - 1 + 1 := by unfold Message.wanted; omega
    obtain ⟨t,reacted,arrives⟩ := receive_reaction nullAddr incoming arrived
      (trace ++ [.address ((onBus nullAddr s).addr.setWidth 8)]) (.inl rfl) calm (show 0 + 1 < 2^16 by decide)
    have first : Received nullAddr incoming arrived s t 0 :=
      ⟨same.trans arrives.same,arrives.calm,arrives.bufferIndex,arrives.twdr,arrives.memory.trans (stored_zero ..).symm⟩
    have quiet : (masterReceive (masterStart nullAddr s s.twcr)).signals = s.signals := by
      rw [masterReceive_onBus nullAddr]
      rfl
    have handled : twiStc nullAddr 0x40 (masterStart nullAddr s s.twcr) = masterReceive (masterStart nullAddr s s.twcr) := rfl
    have cycled := (cycle_unsignalled (by rw [handled]; exact quiet)).trans reacted
    rw [record] at cycled
    obtain ⟨u,led,last⟩ := receive_run ((trace ++ [.address ((onBus nullAddr s).addr.setWidth 8)]) ++
      [.received (incoming arrived) (0 + 1 < (onBus nullAddr s).length)]) ((onBus nullAddr s).wanted - 1) first word (by omega)
    obtain ⟨v,ends,ended,memory⟩ := receive_end last plain
    refine ⟨u,0x58,v,?_,ends,last.same.signals,last.same.ended ended,?_⟩
    · have range : List.range' 0 (onBus nullAddr s).wanted = 0::List.range' 1 ((onBus nullAddr s).wanted - 1) := by
        rw [wanted]
        rfl
      rw [reads] at begun
      simp only [consumed,body,reads,if_true,range,List.map_cons]
      rw [List.append_cons,List.append_cons (trace ++ _)]
      exact .cycle begun (.cycle cycled led)
    · simp only [kept,reads,if_true]
      exact memory

/-- The end of a message looks for the messages that are left. -/
def lookedUp (xs : List Msg) (u : I2c Msg) : I2c Msg :=
  {u with lastMasterMsg := u.masterMsg,masterMsg := xs.find? (unsent u true),slaveMsg := xs.find? (unsent u false)}

omit [DecidableEq Msg] in
theorem masterEnd_next {next : Msg} (holds : Holds u.msgVector xs) (found : xs.find? (unsent u true) = some next) :
    masterEnd u = ctrl (lookedUp xs u) .I2C_START_ACK := by
  have looked : atmegaI2cUpdateFromIsr {u with lastMasterMsg := u.masterMsg} = lookedUp xs u :=
    updateFromIsr_holds (s := {u with lastMasterMsg := u.masterMsg}) holds
  have more : (lookedUp xs u).masterMsg.isSome = true := by rw [lookedUp,found]; rfl
  rw [masterEnd,looked]
  exact if_pos more

omit [DecidableEq Msg] in
theorem masterEnd_last (holds : Holds u.msgVector xs) (found : xs.find? (unsent u true) = none) :
    ∃ cfg, (cfg = .I2C_STOP_ACK ∨ cfg = .I2C_STOP_NACK) ∧
      masterEnd u = ((ctrl (lookedUp xs u) cfg).setBusy false).signal .master := by
  have looked : atmegaI2cUpdateFromIsr {u with lastMasterMsg := u.masterMsg} = lookedUp xs u :=
    updateFromIsr_holds (s := {u with lastMasterMsg := u.masterMsg}) holds
  have nothing : ¬ (lookedUp xs u).masterMsg.isSome = true := by rw [lookedUp,found]; exact Bool.false_ne_true
  rw [masterEnd,looked]
  dsimp only
  rw [if_neg nothing]
  split
  · exact ⟨.I2C_STOP_ACK,.inl rfl,rfl⟩
  · exact ⟨.I2C_STOP_NACK,.inr rfl,rfl⟩

variable (incoming arrived trace) in
/-- The next message follows with a repeated start condition. -/
theorem next_cycle {next : Msg} (holds : Holds u.msgVector xs) (ends : twiStc nullAddr status t = masterEnd u)
    (signals : u.signals = t.signals) (found : xs.find? (unsent u true) = some next) :
    ∃ v, cycle nullAddr incoming ⟨t,some status,arrived,trace⟩ = ⟨v,some 0x10,arrived,trace ++ [.start]⟩ ∧
      v.message = u.message ∧ v.msgVector = u.msgVector ∧ v.memory = u.memory ∧ v.signals = u.signals ∧
      v.masterMsg = some next := by
  obtain ⟨bit,start⟩ := ioctlReg_start u.twcr
  have interrupt : (ctrl (lookedUp xs u) .I2C_START_ACK).twcr.getLsbD 7 = true := bit
  have starts : (ctrl (lookedUp xs u) .I2C_START_ACK).twcr.getLsbD 5 = true := start
  have same : (ctrl (lookedUp xs u) .I2C_START_ACK).signals = t.signals := signals
  refine ⟨ctrl (lookedUp xs u) .I2C_START_ACK,?_,rfl,rfl,rfl,rfl,found⟩
  rw [cycle_unsignalled (by rw [ends,masterEnd_next holds found,same]),ends,masterEnd_next holds found,
    reaction_start interrupt starts]

variable (incoming arrived trace) in
/-- Behind the last message there is a stop condition. -/
theorem last_cycle (holds : Holds u.msgVector xs) (ends : twiStc nullAddr status t = masterEnd u) (calm : Calm u)
    (signals : u.signals = t.signals) (found : xs.find? (unsent u true) = none) :
    ∃ v, cycle nullAddr incoming ⟨t,some status,arrived,trace⟩ = ⟨v,none,arrived,trace ++ [.stop,.signal .master]⟩ ∧
      v.message = u.message ∧ v.memory = u.memory ∧ v.signals = u.signals ++ [.master] ∧ v.busy = false := by
  obtain ⟨cfg,stops,after⟩ := masterEnd_last holds found
  obtain ⟨bit,start,stop⟩ := ioctlReg_stop u.twcr cfg stops
  generalize made : ((ctrl (lookedUp xs u) cfg).setBusy false).signal .master = v at after
  obtain ⟨register,more,message,memory,idle⟩ : v.twcr = ioctlReg u.twcr cfg ∧ v.signals = u.signals ++ [.master] ∧
      v.message = u.message ∧ v.memory = u.memory ∧ v.busy = false := by
    rw [← made]
    exact ⟨rfl,rfl,rfl,rfl,rfl⟩
  have reacted : reaction incoming status v arrived trace =
      ⟨{v with twcr := v.twcr &&& ~~~TWSTO},none,arrived,trace ++ [.stop]⟩ :=
    reaction_stop (by rw [register,bit]) (by rw [register,start,calm.start]) (by rw [register,stop])
  refine ⟨{v with twcr := v.twcr &&& ~~~TWSTO},?_,message,memory,more,idle⟩
  simp only [cycle,ends,after,reacted,more,signals,List.drop_left]
  simp

/-- The messages that are still to be transferred, in the order of the vector. -/
def pending (s : I2c Msg) (xs : List Msg) : List Msg := xs.filter (unsent s true)

/-- `DONE` of each of the messages. -/
def doneAll (ms : List Msg) (message : Msg → Message) : Msg → Message := fun msg =>
  if msg ∈ ms then {message msg with features := (message msg).features ||| I2C_MSG_DONE_FLAG} else message msg

theorem retired_doneAll {msg : Msg} (installed : s.masterMsg = some msg) : retired s = doneAll [msg] s.message := by
  ext1 other
  rw [retired,installed]
  by_cases own : other = msg
  · subst own
    simp [doneAll,I2c.setDone,I2c.setFeatures]
  · simp [doneAll,I2c.setDone,I2c.setFeatures,own]

theorem doneAll_cons (msg : Msg) (ms : List Msg) (message : Msg → Message) :
    doneAll ms (doneAll [msg] message) = doneAll (msg::ms) message := by
  ext1 other
  by_cases own : other = msg
  · subst own
    by_cases again : other ∈ ms <;> simp [doneAll,again,BitVec.or_assoc]
  · simp [doneAll,own]

theorem done_flag (features : Features) : (features ||| I2C_MSG_DONE_FLAG) &&& I2C_MSG_DONE_FLAG ≠ 0 := by
  intro zero
  have bit := congrArg (fun b : Features => b.getLsbD 6) zero
  simp [I2C_MSG_DONE_FLAG] at bit

omit [DecidableEq Msg] in
theorem unsent_iff (s : I2c Msg) (master : Bool) (msg : Msg) : unsent s master msg = true ↔
    i2cMsgIsMaster s (some msg) = master ∧ i2cMsgFeatures s (some msg) &&& I2C_MSG_DONE_FLAG = 0 := decide_eq_true_iff

theorem unsent_done {msg : Msg} (done : u.message = doneAll [msg] s.message) (master : Bool) (other : Msg) :
    unsent u master other = (unsent s master other && !decide (other = msg)) := by
  rw [Bool.eq_iff_iff,Bool.and_eq_true,unsent_iff,unsent_iff]
  by_cases own : other = msg
  · subst own
    simp [i2cMsgFeatures,done,doneAll]
    exact fun _ => done_flag _
  · simp [i2cMsgIsMaster,i2cMsgFeatures,done,doneAll,own]

omit [DecidableEq Msg] in
theorem pending_message (same : u.message = s.message) : pending u xs = pending s xs := by
  apply List.filter_congr
  intro msg _
  rw [Bool.eq_iff_iff,unsent_iff,unsent_iff]
  simp [i2cMsgIsMaster,i2cMsgFeatures,same]

theorem pending_done {msg : Msg} {ms : List Msg} (done : u.message = doneAll [msg] s.message) (distinct : xs.Nodup)
    (left : pending s xs = msg::ms) : pending u xs = ms := by
  have fresh : (msg::ms).Nodup := left ▸ distinct.filter _
  have rest : pending u xs = (pending s xs).filter fun other => !decide (other = msg) := by
    rw [pending,pending,List.filter_filter]
    congr 1
    ext1 other
    rw [unsent_done done,Bool.and_comm]
  rw [rest,left,List.filter_cons_of_neg (by simp),List.filter_eq_self]
  intro other member
  have apart : other ≠ msg := fun same => (List.nodup_cons.mp fresh).1 (same ▸ member)
  simp [apart]

omit [DecidableEq Msg] in
theorem pending_find (u : I2c Msg) (xs : List Msg) : xs.find? (unsent u true) = (pending u xs).head? := List.head?_filter.symm

variable (incoming arrived trace) in
theorem last_run (holds : Holds s.msgVector xs) (starts : status = 0x08 ∨ status = 0x10) (plain : Plain s)
    (word : (onBus nullAddr s).length < 2^16) (last : ∀ u : I2c Msg, u.message = retired s → pending u xs = []) :
    ∃ t after, Leads nullAddr incoming ⟨s,some status,arrived,trace ++ [.start]⟩ ⟨t,none,after,
        trace ++ (conversation incoming [onBus nullAddr s] arrived s.memory ++ [.stop,.signal .master])⟩ ∧
      t.message = retired s ∧ t.memory = delivered incoming [onBus nullAddr s] arrived s.memory ∧
      t.signals = s.signals ++ [.master] ∧ t.busy = false := by
  obtain ⟨t,status',u,led,ends,signals,⟨message,vector,signals',calm⟩,memory⟩ :=
    message_run incoming arrived trace starts plain word
  have nothing : xs.find? (unsent u true) = none := by rw [pending_find,last u message]; rfl
  rw [← vector] at holds
  obtain ⟨v,cycled,message',memory',signals₂,idle⟩ := last_cycle incoming (consumed (onBus nullAddr s) arrived)
    (trace ++ conversation incoming [onBus nullAddr s] arrived s.memory)
    holds ends calm (signals'.trans signals.symm) nothing
  rw [List.append_assoc] at cycled
  exact ⟨v,_,led.trans ⟨1,cycled⟩,message'.trans message,memory'.trans memory,by rw [signals₂,signals'],idle⟩

theorem conversation_cons (m : Message) (ms : List Message) (memory : Nat → BitVec 8) :
    conversation incoming (m::ms) arrived memory = conversation incoming [m] arrived memory ++
      conversation incoming ms (consumed m arrived) (kept m incoming arrived memory) := by
  simp [conversation]

omit [DecidableEq Msg] in
theorem message_plain {msg : Msg} (installed : s.masterMsg = some msg) (quiet : s.callsBack msg = false) : Plain s := by
  intro other there
  obtain rfl : msg = other := Option.some.inj (installed.symm.trans there)
  exact quiet

variable (incoming arrived trace) in
/-- A chain of messages, by induction on those behind the one on the bus. -/
theorem chain_run (ms : List Msg) {msg : Msg} (distinct : xs.Nodup) (holds : Holds s.msgVector xs)
    (starts : status = 0x08 ∨ status = 0x10) (left : pending s xs = msg::ms) (installed : s.masterMsg = some msg)
    (plain : ∀ m ∈ msg::ms, s.callsBack m = false) (words : ∀ m ∈ msg::ms, (s.message m).length < 2^16) :
    ∃ t after, Leads nullAddr incoming ⟨s,some status,arrived,trace ++ [.start]⟩ ⟨t,none,after,
        trace ++ (conversation incoming ((msg::ms).map s.message) arrived s.memory ++ [.stop,.signal .master])⟩ ∧
      t.message = doneAll (msg::ms) s.message ∧
      t.memory = delivered incoming ((msg::ms).map s.message) arrived s.memory ∧
      t.signals = s.signals ++ [.master] ∧ t.busy = false := by
  induction ms generalizing s msg status arrived trace with
  | nil =>
    have record : onBus nullAddr s = s.message msg := onBus_message installed
    have quiet := message_plain installed (plain msg (by simp))
    have retires := retired_doneAll installed
    have last (u : I2c Msg) (message : u.message = retired s) : pending u xs = [] :=
      pending_done (message.trans retires) distinct left
    have ended := last_run incoming arrived trace holds starts quiet
      (record ▸ words msg (by simp)) last
    rwa [record,retires] at ended
  | cons next ms ih =>
    have record : onBus nullAddr s = s.message msg := onBus_message installed
    have quiet := message_plain installed (plain msg (by simp))
    have retires := retired_doneAll installed
    obtain ⟨t,status',u,led,ends,signals,⟨message,vector,signals',calm⟩,memory⟩ :=
      message_run incoming arrived trace starts quiet (record ▸ words msg (by simp))
    have left' : pending u xs = next::ms := pending_done (message.trans retires) distinct left
    rw [← vector] at holds
    obtain ⟨v,cycled,message',vector',memory',signals₂,installed'⟩ := next_cycle incoming
      (consumed (onBus nullAddr s) arrived) (trace ++ conversation incoming [onBus nullAddr s] arrived s.memory)
      holds ends (signals'.trans signals.symm) (by rw [pending_find,left']; rfl)
    have done : v.message = doneAll [msg] s.message := message'.trans (message.trans retires)
    have fresh : (msg::next::ms).Nodup := left ▸ distinct.filter _
    have others : ∀ m ∈ next::ms, v.message m = s.message m := by
      intro m member
      have apart : m ≠ msg := fun same => (List.nodup_cons.mp fresh).1 (same ▸ member)
      simp [done,doneAll,apart]
    rw [← vector'] at holds
    obtain ⟨w,after,led',message₂,memory₂,signals₃,idle⟩ := ih (consumed (onBus nullAddr s) arrived)
      (trace ++ conversation incoming [onBus nullAddr s] arrived s.memory) holds (.inr rfl)
      (pending_done done distinct left) installed'
      (fun m member => by rw [I2c.callsBack,others m member]; exact plain m (List.mem_cons_of_mem _ member))
      (fun m member => by rw [others m member]; exact words m (List.mem_cons_of_mem _ member))
    have records : (next::ms).map v.message = (next::ms).map s.message := List.map_congr_left others
    rw [records,memory',memory,record] at led' memory₂
    refine ⟨w,after,led.trans (.cycle cycled ?_),?_,memory₂,?_,idle⟩
    · rw [List.map_cons,conversation_cons _ ((next::ms).map s.message),record,
        List.append_assoc (conversation ..),← List.append_assoc trace]
      exact led'
    · rw [message₂,done,doneAll_cons]
    · rw [signals₃,signals₂,signals']

/-- The messages of a transfer. Without one the handler puts on the bus what it reads at `NULL`, a message without a buffer. -/
def transfer (nullAddr : Stray) (s : I2c Msg) (xs : List Msg) : List Message :=
  match pending s xs with
  | [] => [⟨0,0,nullAddr.setWidth 16,0⟩]
  | msg::ms => (msg::ms).map s.message

theorem doneAll_done {msg : Msg} (message : t.message = doneAll (pending s xs) s.message) (member : msg ∈ xs)
    (master : i2cMsgIsMaster t (some msg) = true) : i2cMsgFeatures t (some msg) &&& I2C_MSG_DONE_FLAG ≠ 0 := by
  by_cases left : msg ∈ pending s xs
  · simp [i2cMsgFeatures,message,doneAll,left]
    exact done_flag _
  · have same : t.message msg = s.message msg := by simp [message,doneAll,left]
    intro undone
    simp only [i2cMsgIsMaster,i2cMsgFeatures,Option.elim_some,same] at master undone
    exact left (List.mem_filter.mpr ⟨member,(unsent_iff ..).mpr ⟨master,undone⟩⟩)

variable (nullAddr incoming) in
theorem transfer_run (holds : Holds s.msgVector xs) (distinct : xs.Nodup) (installed : s.masterMsg = xs.find? (unsent s true))
    (plain : ∀ msg ∈ pending s xs, s.callsBack msg = false) (words : ∀ msg, (s.message msg).length < 2^16) :
    ∃ t after, Leads nullAddr incoming ⟨s,some 0x08,0,[.start]⟩ ⟨t,none,after,
        conversation incoming (transfer nullAddr s xs) 0 s.memory ++ [.stop,.signal .master]⟩ ∧
      t.message = doneAll (pending s xs) s.message ∧ t.memory = delivered incoming (transfer nullAddr s xs) 0 s.memory ∧
      t.signals = s.signals ++ [.master] ∧ t.busy = false := by
  rw [pending_find] at installed
  cases left : pending s xs with
  | nil =>
    rw [left] at installed
    have record : onBus nullAddr s = ⟨0,0,nullAddr.setWidth 16,0⟩ := by rw [onBus,installed]; rfl
    have retires : retired s = s.message := by rw [retired,installed]; rfl
    have unchanged : doneAll [] s.message = s.message := by ext1 msg; simp [doneAll]
    have quiet : Plain s := fun msg there => by simp [installed] at there
    have last (u : I2c Msg) (message : u.message = retired s) : pending u xs = [] :=
      (pending_message (message.trans retires)).trans left
    have ended := last_run incoming 0 [] holds (.inl rfl) quiet
      (by rw [record]; exact Nat.two_pow_pos 16) last
    rw [record,retires] at ended
    rw [transfer,left,unchanged]
    exact ended
  | cons msg ms =>
    rw [left] at installed plain
    rw [transfer,left]
    exact chain_run incoming 0 [] ms distinct holds (.inl rfl) left installed plain fun m _ => words m

/-- Started by one start condition, the handler transfers the master messages that are not done, in the order of the
vector and each once. The trace has the bytes of each, repeated start conditions between them, one stop condition
and the only signal to the master queue at the end; then the messages are done and the adapter is not busy. -/
theorem master_chain (nullAddr : Stray) (incoming : Nat → BitVec 8) (s : I2c Msg) (xs : List Msg)
    (holds : Holds s.msgVector xs) (distinct : xs.Nodup) (installed : s.masterMsg = xs.find? (unsent s true))
    (plain : ∀ msg ∈ pending s xs, s.callsBack msg = false) (words : ∀ msg, (s.message msg).length < 2^16) :
    ∃ n t after, (cycle nullAddr incoming)^[n] ⟨s,some 0x08,0,[.start]⟩ = ⟨t,none,after,
        conversation incoming (transfer nullAddr s xs) 0 s.memory ++ [.stop,.signal .master]⟩ ∧
      t.memory = delivered incoming (transfer nullAddr s xs) 0 s.memory ∧ t.message = doneAll (pending s xs) s.message ∧
      (∀ msg ∈ xs, i2cMsgIsMaster t (some msg) = true → i2cMsgFeatures t (some msg) &&& I2C_MSG_DONE_FLAG ≠ 0) ∧
      t.signals = s.signals ++ [.master] ∧ t.busy = false := by
  obtain ⟨t,after,⟨n,run⟩,message,memory,signals,idle⟩ :=
    transfer_run nullAddr incoming holds distinct installed plain words
  exact ⟨n,t,after,run,memory,message,fun msg member master => doneAll_done message member master,signals,idle⟩

/-- Two bytes to a slave and two bytes from it, the first message in the vector being 1; message 0 is one of a slave. -/
def chained : I2c Nat where
  message
    | 1 => ⟨0x10,2,0xA0,0x0C⟩
    | 2 => ⟨0x20,2,0xA1,0x04⟩
    | _ => ⟨0x30,4,0x10,0x02⟩
  memory a := a
  msgVector := ⟨3,10,some fun i => [1,2,0][i]?,10,false,false⟩
  busy := false
  error := false
  bufferIndex := 0
  masterMsg := some 1
  lastMasterMsg := none
  slaveMsg := some 0
  lastSlaveMsg := none
  twcr := ioctlReg 0 .I2C_START_ACK
  twdr := 0
  slaveWaits := true
  accesses := []
  signals := []

theorem master_chain_chained : ∃ n t after, (cycle 0 fun k => (k + 7 : Nat))^[n] ⟨chained,some 0x08,0,[.start]⟩ =
    ⟨t,none,after,[.start,.address 0xA0,.sent 0x10,.sent 0x11,.start,.address 0xA1,.received 7 true,.received 8 false,
      .stop,.signal .master]⟩ ∧ t.memory 0x21 = 8 := by
  have filled : Filled (fun i => [1,2,0][i]?) [1,2,0] := fun _ _ => rfl
  have sound : Sound chained.msgVector fun i => [1,2,0][i]? := ⟨rfl,by decide,by decide,rfl⟩
  have words : ∀ msg, (chained.message msg).length < 2^16 := by
    intro msg
    unfold chained
    dsimp only
    split <;> decide
  obtain ⟨n,t,after,run,memory,_⟩ := master_chain 0 (fun k => (k + 7 : Nat)) chained [1,2,0]
    ⟨⟨_,sound,filled⟩,rfl,by decide⟩ (by decide) (by decide) (by decide) words
  exact ⟨n,t,after,run,by rw [memory]; rfl⟩

end BermudaOS.Dev.AtmegaI2c
