import BermudaOS.Dev.AtmegaI2c

/-! The interrupt handler stays inside the buffers of the messages, whatever the bus reports. -/
namespace BermudaOS.Dev.AtmegaI2c

variable {Msg : Type} {s t u : I2c Msg} {msg : Msg}

/-- Nothing but one access below the length of its message is written down, and no
message gets longer. -/
structure Guarded (s t : I2c Msg) : Prop where
  accesses : t.accesses = s.accesses ∨ ∃ access : Access Msg, t.accesses = s.accesses ++ [access] ∧
    access.index < access.length ∧ access.length = (s.message access.msg).length
  lengths : ∀ msg, (t.message msg).length ≤ (s.message msg).length

/-- No access is written down. -/
structure Quiet (s t : I2c Msg) : Prop where
  accesses : t.accesses = s.accesses
  lengths : ∀ msg, (t.message msg).length ≤ (s.message msg).length

theorem Quiet.refl (s : I2c Msg) : Quiet s s := ⟨rfl,fun _ => Nat.le_refl _⟩

theorem Quiet.trans (first : Quiet s t) (second : Quiet t u) : Quiet s u :=
  ⟨second.accesses.trans first.accesses,fun msg => (second.lengths msg).trans (first.lengths msg)⟩

theorem Quiet.guarded (quiet : Quiet s t) : Guarded s t := ⟨.inl quiet.accesses,quiet.lengths⟩

theorem Guarded.quiet (guarded : Guarded s t) (quiet : Quiet t u) : Guarded s u := by
  refine ⟨?_,fun msg => (quiet.lengths msg).trans (guarded.lengths msg)⟩
  rw [quiet.accesses]
  exact guarded.accesses

theorem Quiet.same (accesses : t.accesses = s.accesses) (message : t.message = s.message) : Quiet s t :=
  ⟨accesses,fun msg => Nat.le_of_eq (congrArg (fun f => (f msg).length) message)⟩

theorem ctrl_quiet (s : I2c Msg) (cfg : Ctrl) : Quiet s (ctrl s cfg) := .same rfl rfl

theorem load_guarded (inside : s.bufferIndex < (s.message msg).length) : Guarded s (s.load msg) :=
  ⟨.inr ⟨_,rfl,inside,rfl⟩,fun _ => Nat.le_refl _⟩

theorem store_guarded (inside : s.bufferIndex < (s.message msg).length) : Guarded s (s.store msg) :=
  ⟨.inr ⟨_,rfl,inside,rfl⟩,fun _ => Nat.le_refl _⟩

theorem masterSent_quiet (s : I2c Msg) : Quiet s (masterSent s) := by
  unfold masterSent
  dsimp only
  split
  · exact .same rfl rfl
  · split <;> exact .same rfl rfl

theorem masterEnd_quiet (s : I2c Msg) : Quiet s (masterEnd s) := by
  unfold masterEnd
  dsimp only
  split
  · exact .same rfl rfl
  · split <;> exact .same rfl rfl

theorem masterReceive_quiet (s : I2c Msg) : Quiet s (masterReceive s) := by
  unfold masterReceive
  split
  · split <;> exact .same rfl rfl
  · exact .same rfl rfl

theorem slaveTransmit_guarded (s : I2c Msg) : Guarded s (slaveTransmit s) := by
  unfold slaveTransmit
  split
  · rename_i msg _
    split
    · rename_i inside
      have loaded : Guarded s (s.load msg).next := (load_guarded inside.2).quiet (.same rfl rfl)
      dsimp only
      split <;> exact loaded.quiet (.same rfl rfl)
    · exact Quiet.guarded (.same rfl rfl)
  · exact Quiet.guarded (.same rfl rfl)

theorem masterReceived_guarded (s : I2c Msg) : Guarded s (masterReceived s) := by
  unfold masterReceived
  split
  · split
    · rename_i msg _ inside
      have later : Quiet (s.store msg) (s.store msg).next := .same rfl rfl
      exact (store_guarded inside).quiet (later.trans (masterReceive_quiet _))
    · exact Quiet.guarded (.same rfl rfl)
  · exact (masterReceive_quiet s).guarded

variable [DecidableEq Msg]

/-- A message that is changed gets no longer. -/
theorem update_quiet {new : Message} (shorter : new.length ≤ (s.message msg).length) :
    Quiet s {s with message := Function.update s.message msg new} := by
  refine ⟨rfl,fun other => ?_⟩
  by_cases own : other = msg
  · subst own
    simpa using shorter
  · simp [Function.update_of_ne own]

theorem setFeatures_quiet (s : I2c Msg) (msg : Msg) (features : Features) : Quiet s (s.setFeatures msg features) :=
  update_quiet (Nat.le_refl _)

theorem setDone_quiet (s : I2c Msg) (msg : Msg) : Quiet s (s.setDone msg) := setFeatures_quiet s msg _

theorem slaveBuffEnd_quiet (s : I2c Msg) : Quiet s (atmegaI2cSlaveBuffEnd s) := by
  unfold atmegaI2cSlaveBuffEnd
  split
  · dsimp only
    split <;> exact .same rfl rfl
  · rename_i msg _
    dsimp only
    split
    · exact .same rfl rfl
    · have last : Quiet s {s with lastSlaveMsg := some msg} := .same rfl rfl
      have done := last.trans (setDone_quiet _ msg)
      split
      · exact done.trans (.same rfl rfl)
      · split <;> exact done.trans (.same rfl rfl)

theorem masterTransmit_guarded (s : I2c Msg) : Guarded s (masterTransmit s) := by
  unfold masterTransmit
  split
  · rename_i msg _
    split
    · rename_i inside
      exact (load_guarded inside).quiet (.same rfl rfl)
    · apply Quiet.guarded
      dsimp only
      split
      · exact .same rfl rfl
      · have last : Quiet s {s with lastMasterMsg := some msg} := .same rfl rfl
        have done := last.trans (setDone_quiet _ msg)
        exact done.trans (masterSent_quiet _)
  · exact (masterSent_quiet s).guarded

theorem masterNack_quiet (s : I2c Msg) : Quiet s (masterNack s) := by
  unfold masterNack
  split
  · rename_i msg _
    dsimp only
    split <;> exact (setDone_quiet s msg).trans (.same rfl rfl)
  · dsimp only
    split <;> exact .same rfl rfl

theorem masterReceivedLast_guarded (s : I2c Msg) : Guarded s (masterReceivedLast s) := by
  unfold masterReceivedLast
  split
  · rename_i msg _
    have stored : Guarded s (if s.bufferIndex < (s.message msg).length then s.store msg else s) := by
      split
      · rename_i inside
        exact store_guarded inside
      · exact (Quiet.refl s).guarded
    dsimp only
    generalize (if s.bufferIndex < (s.message msg).length then s.store msg else s) = t at stored ⊢
    split
    · exact stored.quiet (.same rfl rfl)
    · have last : Quiet t {t with lastMasterMsg := some msg} := .same rfl rfl
      have done := last.trans (setDone_quiet _ msg)
      exact stored.quiet (done.trans (masterEnd_quiet _))
  · exact (masterEnd_quiet s).guarded

theorem slaveAddressed_quiet (s : I2c Msg) : Quiet s (slaveAddressed s) := by
  unfold slaveAddressed
  dsimp only
  split
  · rename_i msg _
    split
    · have quiet : Quiet s ((ctrl {s with bufferIndex := 0} .I2C_ACK).setBusy true) := .same rfl rfl
      exact quiet.trans (update_quiet (Nat.le_refl _))
    · exact .same rfl rfl
  · exact .same rfl rfl

theorem slaveReceived_guarded (s : I2c Msg) : Guarded s (slaveReceived s) := by
  unfold slaveReceived
  split
  · exact Quiet.guarded (.same rfl rfl)
  · rename_i msg _
    have stored : Guarded s (if s.bufferIndex < (s.message msg).length then (s.store msg).next else s.setLength msg 0) := by
      split
      · rename_i inside
        exact (store_guarded inside).quiet (.same rfl rfl)
      · exact (update_quiet (Nat.zero_le _)).guarded
    dsimp only
    generalize (if s.bufferIndex < (s.message msg).length then (s.store msg).next else s.setLength msg 0) = t at stored ⊢
    split <;> exact stored.quiet (.same rfl rfl)

theorem slavePlain_quiet (s : I2c Msg) : Quiet s (slavePlain s) := by
  unfold slavePlain
  split
  · exact setFeatures_quiet ..
  · exact .refl s

theorem slaveDone_quiet (s : I2c Msg) : Quiet s (slaveDone s) := by
  unfold slaveDone
  split
  · exact setDone_quiet ..
  · exact .refl s

theorem slaveStopped_quiet (s : I2c Msg) : Quiet s (slaveStopped s) := by
  unfold slaveStopped
  split
  · have plain : Quiet s (atmegaI2cUpdateFromIsr (slavePlain s)) := (slavePlain_quiet s).trans (.same rfl rfl)
    have stopped (cfg : Ctrl) : Quiet s (slaveDone (ctrl (atmegaI2cUpdateFromIsr (slavePlain s)) cfg)) :=
      (plain.trans (ctrl_quiet _ cfg)).trans (slaveDone_quiet _)
    dsimp only
    split <;> exact (stopped _).trans (.same rfl rfl)
  · exact slaveBuffEnd_quiet s

theorem twiStc_guarded (nullAddr : Stray) (status : Nat) (s : I2c Msg) : Guarded s (twiStc nullAddr status s) := by
  unfold twiStc
  split
  case h_1 | h_2 => exact Quiet.guarded (.same rfl rfl)
  case h_3 | h_4 => exact masterTransmit_guarded s
  case h_5 | h_6 | h_7 => exact (masterNack_quiet s).guarded
  case h_8 => exact Quiet.guarded (.same rfl rfl)
  case h_9 => exact masterReceived_guarded s
  case h_10 => exact (masterReceive_quiet s).guarded
  case h_11 => exact masterReceivedLast_guarded s
  case h_12 | h_13 | h_14 | h_15 => exact (slaveAddressed_quiet s).guarded
  case h_16 | h_17 => exact slaveReceived_guarded s
  case h_18 | h_19 => exact (ctrl_quiet s .I2C_NACK).guarded
  case h_20 => exact (slaveStopped_quiet s).guarded
  case h_21 | h_22 =>
    have guarded := slaveTransmit_guarded ({s.setBusy true with bufferIndex := 0} : I2c Msg)
    exact ⟨guarded.accesses,guarded.lengths⟩
  case h_23 => exact slaveTransmit_guarded s
  case h_24 | h_25 => exact (slaveBuffEnd_quiet s).guarded
  case h_26 => exact Quiet.guarded (.same rfl rfl)

/-- Interrupts of any status, between which anything may happen to the driver, the messages and the registers. -/
inductive Runs : I2c Msg → I2c Msg → Prop where
  | start (s : I2c Msg) : Runs s s
  | interrupt {s t : I2c Msg} (nullAddr : Stray) (status : Nat) (runs : Runs s t) : Runs s (twiStc nullAddr status t)
  | between {s t u : I2c Msg} (runs : Runs s t) (accesses : u.accesses = t.accesses) : Runs s u

theorem runs_inside (runs : Runs s t) (inside : ∀ access ∈ s.accesses, access.index < access.length) :
    ∀ access ∈ t.accesses, access.index < access.length := by
  induction runs with
  | start => exact inside
  | @interrupt t nullAddr status runs ih =>
    obtain same | ⟨access,more,below,_⟩ := (twiStc_guarded nullAddr status t).accesses
    · rw [same]
      exact ih
    · intro other member
      rw [more] at member
      obtain old | new := List.mem_append.mp member
      · exact ih other old
      · exact List.mem_singleton.mp new ▸ below
  | between runs accesses ih =>
    rw [accesses]
    exact ih

/-- Every access of the handler to a buffer is below the length that its message has at that moment, and the
handler makes no message longer. -/
theorem handler_inside (s t : I2c Msg) (runs : Runs s t) (start : s.accesses = []) :
    (∀ access ∈ t.accesses, access.index < access.length) ∧
      ∀ nullAddr status msg, ((twiStc nullAddr status t).message msg).length ≤ (t.message msg).length := by
  refine ⟨runs_inside runs ?_,fun nullAddr status => (twiStc_guarded nullAddr status t).lengths⟩
  rw [start]
  simp

/-- A driver whose only message is a master's of one byte, at the address 0. -/
def oneByte : I2c Nat where
  message _ := ⟨0,1,0x50,I2C_MSG_MASTER_MSG_MASK⟩
  memory _ := 0xAB
  msgVector := ⟨1,1,some fun _ => some 0,1,false,false⟩
  busy := true
  error := false
  bufferIndex := 0
  masterMsg := some 0
  lastMasterMsg := none
  slaveMsg := none
  lastSlaveMsg := none
  twcr := 0
  twdr := 0
  slaveWaits := false
  accesses := []
  signals := []

theorem handler_inside_oneByte : (twiStc 0 0x18 oneByte).accesses.length = 1 ∧
    ∀ access ∈ (twiStc 0 0x28 (twiStc 0 0x18 oneByte)).accesses, access.index < access.length :=
  ⟨rfl,(handler_inside oneByte _ (.interrupt 0 0x28 (.interrupt 0 0x18 (.start oneByte))) rfl).1⟩

end BermudaOS.Dev.AtmegaI2c
