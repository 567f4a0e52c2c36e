import BermudaOS.Dev.AtmegaPeers

/-! A message of the master that is too long for the buffer of the slave, by two bytes at least. The slave acknowledges one
byte that it has no place for, and gives the message up: its length is 0 from there on, it is never done, and the slave
answers to no address any more. -/
namespace BermudaOS.Dev.AtmegaI2c
open Lib.Cells Lib.Rendezvous Lib.Moves I2cMsg

variable {Own Peer : Type} [DecidableEq Own] [DecidableEq Peer] {nullAddr strayAddr : Stray} {own : BitVec 8}
  {s t : I2c Own} {r b : I2c Peer} {n : Node Peer} {ys ss : List Peer} {y : Peer} {m : Message} {i k : Nat} {p : Phase}
  {a : Own} {incoming : Nat → BitVec 8} {status arrived : Nat} {trace : List Event} {xs : List Own}

variable (nullAddr incoming arrived trace) in
omit [DecidableEq Peer] in
theorem transmit_part (k : Nat) (sends : status = 0x18 ∨ status = 0x28) (calm : Calm s)
    (rest : s.bufferIndex + k ≤ (onBus nullAddr s).length) (word : (onBus nullAddr s).length < 2^16) :
    ∃ t last, Leads nullAddr incoming ⟨s,some status,arrived,trace⟩ ⟨t,some last,arrived,
        trace ++ (List.range' ((onBus nullAddr s).buff + s.bufferIndex) k).map fun a => .sent (s.memory a)⟩ ∧
      (last = 0x18 ∨ last = 0x28) ∧ Same s t ∧ Calm t ∧ t.memory = s.memory ∧ t.bufferIndex = s.bufferIndex + k := by
  induction k generalizing s status trace with
  | zero =>
    refine ⟨s,status,?_,sends,⟨rfl,rfl,rfl,rfl⟩,calm,rfl,rfl⟩
    simpa using Leads.refl _
  | succ k ih =>
    obtain ⟨t,cycled,same,calm',memory,index⟩ := transmit_cycle incoming arrived trace
      sends calm (show s.bufferIndex < (onBus nullAddr s).length by omega) word
    have record := same.onBus nullAddr
    obtain ⟨u,last,led,lasts,same',calm₂,memory',index'⟩ := ih
      (trace ++ [.sent (s.memory ((onBus nullAddr s).buff + s.bufferIndex))]) (.inr rfl) calm'
      (by rw [record]; omega) (by rwa [record])
    rw [record,memory,index,List.append_assoc] at led
    exact ⟨u,last,.cycle cycled led,lasts,same.trans same',calm₂,memory'.trans memory,by omega⟩

/-- The slave has given a message up. -/
structure GivenUp (y : Peer) (memory : Nat → BitVec 8) (r b : I2c Peer) : Prop where
  others : ∀ z, z ≠ y → b.message z = r.message z
  message : b.message y = {r.message y with length := 0,addr := (b.message y).addr}
  memory : b.memory = memory
  slaveMsg : b.slaveMsg = some y
  signals : b.signals = r.signals
  follows : Follows b = true
  deaf : b.twcr.getLsbD 6 = false

theorem slaveReceived_full {memory : Nat → BitVec 8} (slaveMsg : r.slaveMsg = some y)
    (takes : Takes m memory y r b (r.message y).length) (byte : BitVec 8) :
    GivenUp y b.memory r (slaveReceived {b with twdr := byte}) := by
  obtain ⟨alike,follows,-,index,-⟩ := takes
  have calm := follows_calm follows
  have there : b.slaveMsg = some y := alike.slaveMsg.trans slaveMsg
  have full : ¬ b.bufferIndex < (b.message y).length := by rw [index,alike.length]; omega
  obtain ⟨follows',deaf⟩ := ctrl_follows (b := ({b with twdr := byte} : I2c Peer).setLength y 0) ⟨calm.start,calm.stop⟩ false
  have handled : slaveReceived {b with twdr := byte} = ctrl (({b with twdr := byte} : I2c Peer).setLength y 0) .I2C_NACK := by
    unfold slaveReceived
    dsimp only
    rw [there]
    dsimp only
    rw [if_neg full]
    have cleared : ((({b with twdr := byte} : I2c Peer).setLength y 0).message y).length = 0 := by simp [I2c.setLength]
    exact if_neg (not_not.mpr cleared)
  rw [handled]
  refine ⟨fun z other => (Function.update_of_ne other ..).trans (alike.others z other),?_,rfl,there,alike.signals,follows',deaf⟩
  have cleared : (({b with twdr := byte} : I2c Peer).setLength y 0).message y = {b.message y with length := 0} :=
    Function.update_self ..
  have own : (ctrl (({b with twdr := byte} : I2c Peer).setLength y 0) .I2C_NACK).message y = {b.message y with length := 0} := cleared
  rw [own,alike.addressed]

variable (strayAddr) in
theorem nack_givenUp {memory : Nat → BitVec 8} (gone : GivenUp y memory r b) (byte : BitVec 8) :
    GivenUp y memory r (Node.after strayAddr ⟨{b with twdr := byte},some 0x88⟩) := by
  have calm := follows_calm gone.follows
  obtain ⟨follows,deaf⟩ := ctrl_follows (b := {b with twdr := byte}) ⟨calm.start,calm.stop⟩ false
  exact ⟨gone.others,gone.message,gone.memory,gone.slaveMsg,gone.signals,follows,deaf⟩

theorem masterNack_stops (installed : s.masterMsg = some a) (holds : Holds s.msgVector xs) : ∃ cfg, (cfg = .I2C_STOP_ACK ∨ cfg = .I2C_STOP_NACK) ∧
      (masterNack s).twcr = ioctlReg s.twcr cfg ∧ (masterNack s).message = doneAll [a] s.message ∧
      (masterNack s).memory = s.memory ∧ (masterNack s).signals = s.signals ++ [.master] ∧ (masterNack s).busy = false := by
  have done : (s.setDone a).message = doneAll [a] s.message := by
    rw [← retired_doneAll installed,retired,installed]
    rfl
  have looked : atmegaI2cUpdateFromIsr {s.setDone a with lastMasterMsg := s.masterMsg,busy := false} =
      lookedUp xs {s.setDone a with busy := false} :=
    updateFromIsr_holds (s := {s.setDone a with lastMasterMsg := s.masterMsg,busy := false}) holds
  have handled : masterNack s =
      if (lookedUp xs {s.setDone a with busy := false}).slaveMsg.isSome then
        ctrl ((lookedUp xs {s.setDone a with busy := false}).signal .master) .I2C_STOP_ACK
      else ctrl ((lookedUp xs {s.setDone a with busy := false}).signal .master) .I2C_STOP_NACK := by
    rw [← looked]
    unfold masterNack
    split
    · rename_i other there
      obtain rfl : other = a := Option.some.inj (there.symm.trans installed)
      rfl
    · rename_i nothing
      exact absurd (nothing.symm.trans installed) (by simp)
  rw [handled]
  split
  · exact ⟨.I2C_STOP_ACK,.inl rfl,rfl,done,rfl,rfl,rfl⟩
  · exact ⟨.I2C_STOP_NACK,.inr rfl,rfl,done,rfl,rfl,rfl⟩

variable (strayAddr own) in
/-- The slave hears the bytes that it has room for, and the one behind them. -/
theorem overrun_heard (attends : Attends ys (y::ss) r) (after : n.after strayAddr = r) (address : Addresses own (m.addr.setWidth 8) = true)
    (writes : m.reads = false) (word : (r.message y).length < 2^16) (filled : (r.message y).length ≠ 0) (memory : Nat → BitVec 8) :
    ∃ n', hearAll strayAddr own (.address (m.addr.setWidth 8)::(List.range' m.buff ((r.message y).length + 1)).map fun a => .sent (memory a))
        (n,.started) = some (n',.writing) ∧
      GivenUp y (pasted memory r.memory (r.message y).buff m.buff (r.message y).length) r (n'.after strayAddr) := by
  obtain ⟨n',heard,takes⟩ := takes_run own m memory attends.slaveMsg word (r.message y).length
    (n := ⟨{r with twdr := m.addr.setWidth 8},some 0x60⟩) (slaveAddressed_takes attends filled _) (by omega)
  rw [Nat.zero_add] at takes
  have stored := takes.memory
  have gone := slaveReceived_full attends.slaveMsg takes (memory (m.buff + (r.message y).length))
  refine ⟨⟨{n'.after strayAddr with twdr := memory (m.buff + (r.message y).length)},some 0x80⟩,?_,stored ▸ gone⟩
  have last : hearAll strayAddr own [.sent (memory (m.buff + (r.message y).length))] (n',.writing) =
      some (⟨{n'.after strayAddr with twdr := memory (m.buff + (r.message y).length)},some 0x80⟩,.writing) := by
    rw [hearAll,hear_sent_takes takes]
    rfl
  rw [hearAll,after,hear_addressed attends address,writes,List.range'_concat,List.map_append,Nat.one_mul,List.map_singleton]
  rw [Nat.add_zero] at heard
  exact (hearAll_append ..).trans ((congrArg (Option.bind · _) heard).trans last)

variable (own trace) in
omit [DecidableEq Own] [DecidableEq Peer] in
theorem meet_refused {n : Node Peer} {o : Option Nat} (interrupt : s.twcr.getLsbD 7 = true) (calm : Calm s)
    (follows : Follows n.i2c = true) (deaf : n.i2c.twcr.getLsbD 6 = false) : meet own (⟨s,o⟩ : Node Own) n ⟨.writing,trace⟩ =
      some (⟨s,some 0x30⟩,⟨{n.i2c with twdr := s.twdr},some 0x88⟩,⟨.refused false,trace ++ [.sent s.twdr]⟩) := by
  have both : ¬ (¬ s.twcr.getLsbD 7 = true ∨ ¬ Follows n.i2c = true) := by
    rw [not_or,not_not,not_not]
    exact ⟨interrupt,follows⟩
  unfold meet
  dsimp only
  rw [if_neg both,if_neg (Bool.not_eq_true _ ▸ calm.start),if_neg (Bool.not_eq_true _ ▸ calm.stop)]
  exact if_neg (Bool.not_eq_true _ ▸ deaf)

theorem masterTransmit_more (installed : s.masterMsg = some a) (inside : s.bufferIndex < (s.message a).length) :
    masterTransmit s = ctrl (s.load a).next .I2C_ACK := by
  unfold masterTransmit
  split
  · rename_i other there
    obtain rfl : other = a := Option.some.inj (there.symm.trans installed)
    exact if_pos inside
  · rename_i nothing
    exact absurd (nothing.symm.trans installed) (by simp)

variable (nullAddr strayAddr own trace) in
/-- From the start condition on: the bytes that the slave hears, one that it refuses, and the stop condition. -/
theorem overrun_rounds (holds : Holds s.msgVector xs) (installed : s.masterMsg = some a) (attends : Attends ys (y::ss) r)
    (address : Addresses own ((s.message a).addr.setWidth 8) = true) (writes : (s.message a).reads = false)
    (word : (s.message a).length < 2^16) (filled : (r.message y).length ≠ 0)
    (long : (r.message y).length + 2 ≤ (s.message a).length) :
    ∃ t u, Rounds (peers nullAddr strayAddr own) ((r.message y).length + 4) (⟨s,some 0x08⟩,⟨r,none⟩,⟨.started,trace⟩)
        (⟨t,none⟩,⟨u,none⟩,⟨.idle,trace ++ (.address ((s.message a).addr.setWidth 8)::
          ((List.range' (s.message a).buff ((r.message y).length + 2)).map fun a => .sent (s.memory a)) ++ [.stop])⟩) ∧
      Transferred [a] s.memory s t ∧
      GivenUp y (pasted s.memory r.memory (r.message y).buff (s.message a).buff (r.message y).length) r u := by
  have record : onBus nullAddr s = s.message a := onBus_message installed
  have begun := start_cycle nullAddr (fun _ => 0) s 0 trace (.inl rfl)
  have same : Same s (masterStart nullAddr s s.twcr) := ⟨rfl,rfl,rfl,rfl⟩
  have record' := same.onBus nullAddr
  have begins : (masterStart nullAddr s s.twcr).bufferIndex = 0 := rfl
  have room : (masterStart nullAddr s s.twcr).bufferIndex + ((r.message y).length + 1) ≤ (s.message a).length := by omega
  obtain ⟨v,last,⟨c,led⟩,lasts,same',calm,memory,index⟩ := transmit_part nullAddr (fun _ => 0) 0
    (trace ++ [.address ((s.message a).addr.setWidth 8)]) ((r.message y).length + 1) (s := masterStart nullAddr s s.twcr) (.inl rfl)
    masterStart_calm (by rwa [record',record]) (by rwa [record',record])
  have whole := same.trans same'
  rw [begins,Nat.zero_add] at index
  rw [record,writes] at begun
  rw [record',record,List.append_assoc] at led
  have led' : (cycle nullAddr fun _ => 0)^[c + 1] ⟨s,some 0x08,0,trace⟩ = ⟨v,some last,0,trace ++
      .address ((s.message a).addr.setWidth 8)::(List.range' (s.message a).buff ((r.message y).length + 1)).map fun a =>
        .sent (s.memory a)⟩ := by
    rw [Function.iterate_succ_apply,begun]
    exact led
  obtain ⟨n',heard,gone⟩ := overrun_heard strayAddr own (n := ⟨r,none⟩) attends rfl address writes (by omega) filled s.memory
  obtain ⟨rounds,-⟩ := cycles_rounds (c + 1) (.inl ⟨.inl rfl,rfl⟩) led' (by simp) heard
  have installed' : v.masterMsg = some a := whole.masterMsg.trans installed
  have inside : v.bufferIndex < (v.message a).length := by
    rw [whole.message,index]
    omega
  generalize sent : ctrl (v.load a).next .I2C_ACK = w
  have handled : twiStc nullAddr last v = w := by rw [twiStc_transmit lasts,masterTransmit_more installed' inside,sent]
  obtain ⟨bit,-,start,stop⟩ := ioctlReg_acknowledge v.twcr true
  obtain ⟨interrupt,calm',message,vector,memory',signals,own',byte⟩ : w.twcr.getLsbD 7 = true ∧ Calm w ∧ w.message = s.message ∧
      w.msgVector = s.msgVector ∧ w.memory = s.memory ∧ w.signals = s.signals ∧ w.masterMsg = some a ∧
      w.twdr = s.memory ((s.message a).buff + ((r.message y).length + 1)) := by
    rw [← sent]
    refine ⟨bit,⟨start.trans calm.start,stop.trans calm.stop⟩,whole.message,whole.msgVector,memory,whole.signals,installed',?_⟩
    have read : (ctrl (v.load a).next .I2C_ACK).twdr = v.memory ((v.message a).buff + v.bufferIndex) := rfl
    rw [read,memory,whole.message,index]
    rfl
  generalize events : trace ++ .address ((s.message a).addr.setWidth 8)::
    (List.range' (s.message a).buff ((r.message y).length + 1)).map (fun a => Event.sent (s.memory a)) = before at rounds
  have refused := meet_refused own before (n := settled (Node.handle strayAddr) n') (o := none) interrupt calm' gone.follows gone.deaf
  have gone' := nack_givenUp strayAddr gone w.twdr
  obtain ⟨cfg,stops,register,message',memory₂,signals',idle⟩ := masterNack_stops own' (vector ▸ holds)
  obtain ⟨stopped,calm₂⟩ := meet_stop own (before ++ [.sent w.twdr])
    (n := settled (Node.handle strayAddr) ⟨{n'.after strayAddr with twdr := w.twdr},some 0x88⟩) register stops calm'.start gone'.follows
    (.refused false)
  have first : (peers nullAddr strayAddr own).round (⟨v,some last⟩,n',⟨.writing,before⟩) =
      some (⟨w,some 0x30⟩,⟨{n'.after strayAddr with twdr := w.twdr},some 0x88⟩,⟨.refused false,before ++ [.sent w.twdr]⟩) :=
    (congrArg (fun m => meet own ⟨m,none⟩ (settled (Node.handle strayAddr) n') ⟨.writing,before⟩) handled).trans refused
  have second : (peers nullAddr strayAddr own).round
      (⟨w,some 0x30⟩,⟨{n'.after strayAddr with twdr := w.twdr},some 0x88⟩,⟨.refused false,before ++ [.sent w.twdr]⟩) = _ := stopped
  have all := (rounds.snoc first).snoc second
  have trail : before ++ [.sent w.twdr] ++ [.stop] = trace ++ (.address ((s.message a).addr.setWidth 8)::
      ((List.range' (s.message a).buff ((r.message y).length + 2)).map fun a => .sent (s.memory a)) ++ [.stop]) := by
    rw [← events,byte,List.range'_concat (n := (r.message y).length + 1)]
    simp
  have count : (Event.address ((s.message a).addr.setWidth 8)::
      (List.range' (s.message a).buff ((r.message y).length + 1)).map (fun a => Event.sent (s.memory a))).length + 1 + 1 =
      (r.message y).length + 4 := by simp
  rw [trail,count] at all
  exact ⟨_,_,all,⟨message'.trans (by rw [message]),memory₂.trans memory',by rw [← signals]; exact signals',idle,calm₂⟩,gone'⟩

/-- A message that is two bytes longer than the buffer of the slave, or more, ends whatever the order of the handlers:
the slave has filled its buffer, the master has its message done and no byte beyond the refused one is sent, but the
message of the slave is not done, it has lost its length, no thread of the slave is signalled, and the slave does not
answer any more. -/
theorem overrun_ends (nullAddr strayAddr : Stray) (own : BitVec 8) (s : I2c Own) (r : I2c Peer) (xs : List Own) (ys ss : List Peer)
    (a : Own) (y : Peer) (holds : Holds s.msgVector xs) (installed : s.masterMsg = some a)
    (starts : s.twcr.getLsbD 7 = true ∧ s.twcr.getLsbD 5 = true) (attends : Attends ys (y::ss) r)
    (address : Addresses own ((s.message a).addr.setWidth 8) = true) (writes : (s.message a).reads = false)
    (word : (s.message a).length < 2^16) (filled : (r.message y).length ≠ 0)
    (long : (r.message y).length + 2 ≤ (s.message a).length) :
    ∃ t u, Transferred [a] s.memory s t ∧
      GivenUp y (pasted s.memory r.memory (r.message y).buff (s.message a).buff (r.message y).length) r u ∧ offered u ys = y::ss ∧
      ∀ n state, Run (peers nullAddr strayAddr own) (⟨s,none⟩,⟨r,none⟩,⟨.idle,[]⟩) n state →
        n ≤ 3 * ((r.message y).length + 5) + 2 ∧
          ((∀ next, ¬ Step (peers nullAddr strayAddr own) state next) → state = (⟨t,none⟩,⟨u,none⟩,
            ⟨.idle,.start::.address ((s.message a).addr.setWidth 8)::
              ((List.range' (s.message a).buff ((r.message y).length + 2)).map (fun a => .sent (s.memory a)) ++ [.stop])⟩)) := by
  obtain ⟨t,u,rounds,transferred,gone⟩ := overrun_rounds nullAddr strayAddr own [.start] holds installed attends address writes word
    filled long
  have last : (peers nullAddr strayAddr own).round (⟨t,none⟩,⟨u,none⟩,⟨.idle,[.start] ++ (.address ((s.message a).addr.setWidth 8)::
      ((List.range' (s.message a).buff ((r.message y).length + 2)).map fun a => .sent (s.memory a)) ++ [.stop])⟩) = none :=
    meet_stopped own _ transferred.calm
  refine ⟨t,u,transferred,gone,?_,fun n state run => ?_⟩
  · have features (z : Peer) : (u.message z).features = (r.message z).features := by
      by_cases same : z = y
      · rw [same,gone.message]
      · rw [gone.others z same]
    rw [offered,unsent_features features]
    exact attends.left
  · obtain ⟨short,ends⟩ := run_ends (peers_brief nullAddr strayAddr own) (.round (start_round starts attends.follows) rounds) last run
    exact ⟨short,fun stuck => ends stuck⟩

/-- A slave with a buffer of two bytes, for a message of four. -/
def cramped : I2c Nat := {listening with message := fun _ => ⟨0x50,2,0x10,0x02⟩}

def verbose : I2c Nat := {chained with message := fun _ => ⟨0x10,4,0xA0,0x0C⟩}

theorem overrun_ends_cramped : ∃ t u : I2c Nat, u.memory 0x51 = 0x11 ∧ (u.message 3).length = 0 ∧ u.signals = [] ∧
    ∀ n state, Run (peers 0 0 0xA0) (⟨verbose,none⟩,⟨cramped,none⟩,⟨.idle,[]⟩) n state →
      n ≤ 23 ∧ ((∀ next, ¬ Step (peers 0 0 0xA0) state next) → state = (⟨t,none⟩,⟨u,none⟩,⟨.idle,
        [.start,.address 0xA0,.sent 0x10,.sent 0x11,.sent 0x12,.sent 0x13,.stop]⟩)) := by
  have filled : Filled (fun i => [1,2,0][i]?) [1,2,0] := fun _ _ => rfl
  have sound : Sound verbose.msgVector fun i => [1,2,0][i]? := ⟨rfl,by decide,by decide,rfl⟩
  have filled' : Filled (fun i => [3,4][i]?) [3,4] := fun _ _ => rfl
  have sound' : Sound cramped.msgVector fun i => [3,4][i]? := ⟨rfl,by decide,by decide,rfl⟩
  have attends : Attends [3,4] [3,4] cramped :=
    ⟨⟨⟨_,sound',filled'⟩,rfl,by decide⟩,rfl,by decide,by decide,rfl,by decide,by decide⟩
  obtain ⟨t,u,transferred,gone,-,runs⟩ := overrun_ends 0 0 0xA0 verbose cramped [1,2,0] [3,4] [4] 1 3
    ⟨⟨_,sound,filled⟩,rfl,by decide⟩ rfl ⟨by decide,by decide⟩ attends (by decide) (by decide) (by decide) (by decide) (by decide)
  exact ⟨t,u,by rw [gone.memory]; rfl,by rw [gone.message],by rw [gone.signals]; rfl,runs⟩

end BermudaOS.Dev.AtmegaI2c
