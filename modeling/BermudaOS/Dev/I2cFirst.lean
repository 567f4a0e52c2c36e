import BermudaOS.Dev.I2cCleanup

/-! The first transfer of an adapter whose vector has not been created. -/
namespace BermudaOS.Dev.I2cCore
open I2cMsg AtmegaI2c

variable {Msg : Type} {s t u : Core Msg} {p : Pointer Msg} {xs : List Msg} {msg : Msg}
  (garbage : Features)

/-- Each pointer that has been used was that of an allocated message. -/
def Sound (s : Core Msg) : Prop := ∀ use ∈ s.uses, use.live = true

/-- What has been written down stays. -/
def Grows (s t : Core Msg) : Prop := s.uses ⊆ t.uses

theorem Grows.refl (s : Core Msg) : Grows s s := List.Subset.refl _

theorem Grows.trans (first : Grows s t) (second : Grows t u) : Grows s u := List.Subset.trans first second

theorem Grows.sound (grows : Grows s t) (sound : Sound t) : Sound s := fun use member => sound use (grows member)

theorem use_grows (s : Core Msg) (p : Pointer Msg) : Grows s (s.use p) := List.subset_append_left _ _

theorem i2cMsgFeatures_grows (garbage : Features) (s : Core Msg) (p : Pointer Msg) :
    Grows s (i2cMsgFeatures garbage s p).1 := by
  cases p with
  | null => exact .refl s
  | message msg => exact use_grows s _
  | ptrError code => exact use_grows s _

theorem addUses_grows (s : Core Msg) (n i : Nat) : Grows s (addUses s n i) := by
  induction n generalizing s i with
  | zero => exact .refl s
  | succ n ih =>
    unfold addUses
    split
    · exact .refl s
    · split
      · exact .refl s
      · split
        · exact (use_grows s _).trans (ih _ _)
        · exact use_grows s _

theorem vectorAdd_grows (heap : Nat → Bool) (s : Core Msg) (msg : Msg) (master : Bool) :
    Grows s (vectorAdd heap s msg master).1 := by
  have looked : Grows s (if master then addUses s (s.vector.length + 1) 0 else s) := by
    split
    · exact addUses_grows s _ _
    · exact .refl s
  exact looked

theorem vectorInsertAt_grows (heap : Nat → Bool) (s : Core Msg) (msg : Msg) (index : Nat) :
    Grows s (vectorInsertAt heap s msg index).1 := by
  unfold vectorInsertAt
  split
  · exact .refl s
  · dsimp only
    split <;> exact .refl s

theorem withVector_grows (s : Core Msg) (v : MsgVector Msg) : Grows s {s with vector := v} := .refl s

variable [DecidableEq Msg]

theorem setFeatures_grows (s : Core Msg) (p : Pointer Msg) (features : Features) :
    Grows s (s.setFeatures p features) := by
  cases p <;> exact use_grows s _

theorem free_grows (s : Core Msg) (p : Pointer Msg) : Grows s (s.free p) := by
  cases p <;> exact use_grows s _

theorem setDone_grows (s : Core Msg) (p : Pointer Msg) : Grows s (setDone garbage s p) := setFeatures_grows s p _

theorem cleanupStep_read (master : Bool) (i : Nat) (s : Core Msg) :
    Grows (i2cMsgFeatures garbage (s.get i).1 (s.get i).2).1 (cleanupStep garbage master i s) := by
  unfold cleanupStep
  dsimp only
  generalize (i2cMsgFeatures garbage (s.get i).1 (s.get i).2).1 = t
  split
  · have used : Grows t (({t with vector := (i2cVectorDeleteAt t.vector i).1} : Core Msg).use (s.get i).2) := use_grows t _
    exact used.trans (free_grows _ _)
  · exact .refl t

theorem cleanupStep_grows (master : Bool) (i : Nat) (s : Core Msg) : Grows s (cleanupStep garbage master i s) :=
  Grows.trans (i2cMsgFeatures_grows garbage (s.get i).1 _) (cleanupStep_read garbage master i s)

theorem cleanupWalk_grows (master : Bool) (i : Nat) (s : Core Msg) : Grows s (cleanupWalk garbage master i s) := by
  induction i generalizing s with
  | zero => exact cleanupStep_grows garbage master 0 s
  | succ i ih => exact (cleanupStep_grows garbage master (i + 1) s).trans (ih _)

/-- The entry the loop begins with does not matter. -/
theorem cleanup_walks (heap : Nat → Bool) (master : Bool) (s : Core Msg) :
    ∃ i, i2cCleanupAdapterMsgs garbage heap master s = {cleanupWalk garbage master i s with
      vector := i2cVectorReshape heap (cleanupWalk garbage master i s).vector} :=
  ⟨size (s.vector.length + 65535),rfl⟩

theorem cleanup_grows (heap : Nat → Bool) (master : Bool) (s : Core Msg) :
    Grows s (i2cCleanupAdapterMsgs garbage heap master s) := by
  obtain ⟨i,walks⟩ := cleanup_walks garbage heap master s
  rw [walks]
  exact (cleanupWalk_grows garbage master i s).trans (withVector_grows _ _)

theorem i2cUpdate_grows (heap : Nat → Bool) (master : Bool) (s : Core Msg) :
    Grows s (i2cUpdate garbage heap master s).1 :=
  cleanup_grows garbage heap master s

theorem addMessages_grows (client : Client Msg) (qs : List (Queued Msg)) (s : Core Msg) (rc : Int) :
    Grows s (addMessages client qs s rc).1 := by
  induction qs generalizing s rc with
  | nil => exact .refl s
  | cons q qs ih =>
    have used := use_grows s (.message q.msg)
    unfold addMessages
    dsimp only
    split
    · generalize (if s.features q.msg &&& I2C_MSG_CALL_BACK_MASK ≠ 0 ∧ ¬ client.callsBack = true then
        s.features q.msg &&& ~~~I2C_MSG_CALL_BACK_MASK else s.features q.msg) = features
      have set := used.trans (setFeatures_grows _ (.message q.msg) features)
      have added := set.trans (vectorAdd_grows q.heap _ q.msg client.master)
      split
      · split
        · exact added.trans ((withVector_grows _ _).trans ((vectorAdd_grows _ _ _ _).trans (ih _ _)))
        · exact added.trans ((withVector_grows _ _).trans (free_grows _ _))
      · exact added.trans (ih _ _)
    · exact used.trans ((free_grows _ _).trans (ih _ _))

theorem callBack_grows (client : Client Msg) (turn : Turn Msg) (s : Core Msg) (msg : Pointer Msg) (index : Nat) :
    Grows s (callBack garbage client turn s msg index).1 := by
  unfold callBack
  split
  · exact .refl s
  · rename_i newmsg _
    have used : Grows s ((s.give newmsg turn.features).use (.message newmsg)) := use_grows (s.give newmsg turn.features) _
    dsimp only
    generalize (s.give newmsg turn.features).use (.message newmsg) = t at used ⊢
    split
    · have set := used.trans ((use_grows t msg).trans ((setDone_grows garbage _ msg).trans
        (setFeatures_grows _ (.message newmsg) (turn.features &&& ~~~I2C_MSG_DONE_FLAG))))
      have inserted := set.trans (vectorInsertAt_grows turn.insert _ newmsg (size (index + 1)))
      split
      · split
        · exact inserted.trans ((withVector_grows _ _).trans (vectorInsertAt_grows _ _ _ _))
        · exact inserted.trans ((withVector_grows _ _).trans (free_grows _ _))
      · exact inserted
    · exact used.trans (free_grows _ _)

theorem turnCall_grows (client : Client Msg) (turn : Turn Msg) (s : Core Msg) (index : Nat) (rc : Int) :
    Grows s (turnCall garbage client turn s index rc).1 := by
  let flagged : Core Msg := {s with features := turn.flags}
  have read : Grows s (i2cMsgFeatures garbage (flagged.get index).1 (flagged.get index).2).1 :=
    i2cMsgFeatures_grows garbage (flagged.get index).1 _
  unfold turnCall
  dsimp only
  split
  · exact read.trans (callBack_grows garbage client turn _ _ index)
  · exact read

theorem turnUpdate_core (client : Client Msg) (turn : Turn Msg) (s : Core Msg) (index : Nat) :
    (turnUpdate garbage client turn s index).1 =
      if 0 < index then (i2cUpdate garbage turn.reshape client.master s).1 else s := by
  unfold turnUpdate
  generalize i2cUpdate garbage turn.reshape client.master s = updated
  by_cases later : 0 < index
  · rw [if_pos later,if_pos later]
  · rw [if_neg later,if_neg later]

theorem turnUpdate_grows (client : Client Msg) (turn : Turn Msg) (s : Core Msg) (index : Nat) :
    Grows s (turnUpdate garbage client turn s index).1 := by
  rw [turnUpdate_core]
  split
  · exact i2cUpdate_grows garbage turn.reshape client.master s
  · exact .refl s

theorem loop_grows (client : Client Msg) (turns : List (Turn Msg)) (s : Core Msg) (index : Nat) (rc : Int) :
    Grows s (loop garbage client turns s index rc).1 := by
  induction turns generalizing s index rc with
  | nil => exact .refl s
  | cons turn turns ih =>
    have called := turnCall_grows garbage client turn s index rc
    unfold loop
    split
    · rename_i t result
      rwa [result] at called
    · rename_i t index rc result
      rw [result] at called
      have updated := called.trans (turnUpdate_grows garbage client turn t index)
      dsimp only
      split
      · split
        · exact updated.trans (ih _ _ _)
        · exact updated
      · exact updated

theorem afterXfer_grows (client : Client Msg) (xfer : Xfer Msg) (s : Core Msg) :
    Grows s (afterXfer garbage client xfer s) := by
  let flagged : Core Msg := {s with features := xfer.flags}
  have looped : Grows s (if xfer.result = 0 ∧ xfer.index ≠ 65535 then
      loop garbage client xfer.turns flagged xfer.index xfer.result else (flagged,true)).1 := by
    split
    · exact loop_grows garbage client xfer.turns flagged xfer.index xfer.result
    · exact .refl s
  unfold afterXfer
  dsimp only
  generalize (if xfer.result = 0 ∧ xfer.index ≠ 65535 then
      loop garbage client xfer.turns flagged xfer.index xfer.result else (flagged,true)) = r at looped ⊢
  split
  · exact looped.trans (i2cUpdate_grows garbage xfer.reshape client.master {r.1 with features := xfer.flagsAfter})
  · exact looped

theorem transfer_grows (heap : Nat → Bool) (client : Client Msg) (busy : Bool) (xfer : Option (Xfer Msg))
    (s : Core Msg) :
    Grows (if client.master ∧ ¬ busy then i2cMasterTmo garbage heap s else s) (transfer garbage heap client busy xfer s) := by
  unfold transfer
  dsimp only
  generalize (if client.master = true ∧ ¬ busy = true then i2cMasterTmo garbage heap s else s) = t
  have added := addMessages_grows client client.queued t (-devInternal)
  split
  · exact added
  · split
    · exact added
    · exact added.trans (afterXfer_grows garbage client _ _)

theorem cleanupStep_unsound (master : Bool) (i : Nat) (missing : s.vector.data = none) :
    ¬ Sound (cleanupStep garbage master i s) := by
  intro sound
  have read := (cleanupStep_read garbage master i s).sound sound
  have pointer : (s.get i).2 = .ptrError (-devNoinit) := by simp [Core.get,i2cVectorGet,missing]
  rw [pointer] at read
  have last := read ⟨.ptrError (-devNoinit),false⟩ (List.mem_append_right _ (List.mem_singleton_self _))
  simp at last

/-- The clean-up of a vector that has no block uses an error code as a message. -/
theorem cleanup_unsound (heap : Nat → Bool) (master : Bool) (missing : s.vector.data = none) :
    ¬ Sound (i2cCleanupAdapterMsgs garbage heap master s) := by
  have walked (i : Nat) : ¬ Sound (cleanupWalk garbage master i s) := by
    cases i with
    | zero => exact cleanupStep_unsound garbage master 0 missing
    | succ i =>
      intro sound
      exact cleanupStep_unsound garbage master (i + 1) missing ((cleanupWalk_grows garbage master i _).sound sound)
  obtain ⟨i,walks⟩ := cleanup_walks garbage heap master s
  rw [walks]
  exact walked i

/-- The vector of a new adapter. -/
structure Blank (v : MsgVector Msg) : Prop where
  data : v.data = none
  length : v.length = 0
  calm : v.strayed = false

theorem master_unsound (heap : Nat → Bool) (client : Client Msg) (xfer : Option (Xfer Msg))
    (master : client.master = true)
    (blank : Blank s.vector) : ¬ Sound (transfer garbage heap client false xfer s) := by
  intro sound
  have grown := (transfer_grows garbage heap client false xfer s).sound sound
  have first : firstWalk garbage true s.vector.length 0 s = (s,none) := by rw [blank.length]; rfl
  rw [if_pos ⟨master,by simp⟩,i2cMasterTmo,first] at grown
  exact cleanup_unsound garbage heap true blank.data grown

/-- The vector holds allocated messages, and nothing else has been used. -/
structure Good (s : Core Msg) (xs : List Msg) : Prop where
  holds : Holds s.vector xs
  distinct : xs.Nodup
  live : ∀ msg ∈ xs, s.live msg = true
  sound : Sound s

omit [DecidableEq Msg] in
theorem use_sound (sound : Sound s) (live : s.isLive p = true) : Sound (s.use p) := by
  intro use member
  obtain old | new := List.mem_append.mp member
  · exact sound use old
  · obtain rfl := List.mem_singleton.mp new
    exact live

omit [DecidableEq Msg] in
theorem use_good (good : Good s xs) (live : s.isLive p = true) : Good (s.use p) xs :=
  ⟨good.holds,good.distinct,good.live,use_sound good.sound live⟩

omit [DecidableEq Msg] in
theorem get_good (good : Good s xs) (index : Nat) : s.get index = (s,.of xs[index]?) := get_holds good.holds index

omit [DecidableEq Msg] in
theorem Good.stored (good : Good s xs) : Stored s xs := ⟨good.holds,good.distinct,good.live⟩

omit [DecidableEq Msg] in
theorem Good.small (good : Good s xs) : xs.length < 2^15 := by
  obtain ⟨⟨f,cells,filled⟩,length,within⟩ := good.holds
  have small := sound_limit cells
  omega

theorem free_good (good : Good s xs) (live : s.live msg = true) (gone : msg ∉ xs) :
    Good (s.free (.message msg)) xs := by
  refine ⟨good.holds,good.distinct,?_,use_sound good.sound live⟩
  intro m member
  have other : m ≠ msg := fun same => gone (same ▸ member)
  exact (Function.update_of_ne other ..).trans (good.live m member)

theorem cleanup_good (heap : Nat → Bool) (master : Bool) (good : Good s xs) :
    ∃ ys, Good (i2cCleanupAdapterMsgs garbage heap master s) ys := by
  obtain ⟨freed,left⟩ := cleanup_freed garbage heap master good.stored
  refine ⟨_,left,good.distinct.filter _,fun msg member => ?_,fun use member => ?_⟩
  · obtain ⟨inside,kept⟩ := List.mem_filter.mp member
    rw [freed.live,good.live msg inside,kept]
    simp
  · rw [freed.uses] at member
    obtain old | new := List.mem_append.mp member
    · exact good.sound use old
    · exact cleanupUses_live new

theorem i2cUpdate_good (heap : Nat → Bool) (master : Bool) (good : Good s xs) :
    ∃ ys, Good (i2cUpdate garbage heap master s).1 ys :=
  cleanup_good garbage heap master good

/-- A message of the core or of the client that is not in the vector. -/
structure Spare (s : Core Msg) (xs : List Msg) (msg : Msg) : Prop where
  live : s.live msg = true
  fresh : msg ∉ xs

/-- Where the block is too short for one more entry, the heap has the room that
`i2c_vector_shift_right` asks for. -/
def Fits (heap : Nat → Bool) (v : MsgVector Msg) : Prop :=
  v.limit ≤ size (v.length + 1) → heap (size (size (v.limit + 1) * entrySize)) = true

omit [DecidableEq Msg] in
theorem holds_refused {v : MsgVector Msg} (holds : Holds v xs) (refused : Bool) :
    Holds {v with refused := refused} xs := by
  obtain ⟨⟨f,cells,filled⟩,length,within⟩ := holds
  exact ⟨⟨f,⟨cells.data,cells.covered,cells.bounded,cells.kept⟩,filled⟩,length,within⟩

omit [DecidableEq Msg] in
theorem insertAt_shift {f : Nat → Option Msg} (heap : Nat → Bool) (index : Nat) (data : s.vector.data = some f) :
    vectorInsertAt heap s msg index =
      (if (i2cVectorShiftRight heap {s.vector with refused := false} index 1).2 = -devOk then
        ({s with vector := (i2cVectorShiftRight heap {s.vector with refused := false} index 1).1.write index (some msg)},
          (i2cVectorShiftRight heap {s.vector with refused := false} index 1).2)
      else
        ({s with vector := (i2cVectorShiftRight heap {s.vector with refused := false} index 1).1},
          (i2cVectorShiftRight heap {s.vector with refused := false} index 1).2)) := by
  unfold vectorInsertAt
  split
  · rename_i missing
    cases data.symm.trans missing
  · rfl

omit [DecidableEq Msg] in
theorem shiftRightWalk_refused (index num last : Nat) (v : MsgVector Msg) :
    (shiftRightWalk index num last v).refused = v.refused := by
  induction last generalizing v with
  | zero =>
    rw [shiftRightWalk]
    split <;> rfl
  | succ last ih =>
    rw [shiftRightWalk]
    split
    · exact ih _
    · rfl

omit [DecidableEq Msg] in
theorem shiftedRight_refused (index num : Nat) (v : MsgVector Msg) : (shiftedRight index num v).refused = v.refused := by
  rw [shiftedRight,lengthen_refused,shiftRightWalk_refused]

omit [DecidableEq Msg] in
/-- A right shift that does not get its room loses the block. -/
theorem shiftRight_fits (v : MsgVector Msg) (heap : Nat → Bool) (index : Nat) (calm : v.refused = false) :
    (Fits heap v ∧ (i2cVectorShiftRight heap v index 1).1.refused = false) ∨
      (¬ Fits heap v ∧ (i2cVectorShiftRight heap v index 1).2 = -devNull ∧
        (i2cVectorShiftRight heap v index 1).1.data = none) := by
  by_cases full : v.limit ≤ size (v.length + 1)
  · cases block : heap (size (size (v.limit + 1) * entrySize)) with
    | false =>
      refine .inr ⟨fun fits => ?_,?_⟩
      · cases block.symm.trans (fits full)
      · simp [i2cVectorShiftRight,full,MsgVector.realloc,block]
    | true =>
      refine .inl ⟨fun _ => block,?_⟩
      rw [shiftRight_grown full block,shiftedRight_refused]
      exact calm
  · refine .inl ⟨fun less => absurd less full,?_⟩
    rw [shiftRight_kept full,shiftedRight_refused]
    exact calm

omit [DecidableEq Msg] in
theorem insertAt_holds {heap : Nat → Bool} {index : Nat} (msg : Msg) (served : ∀ n, heap n = true → n ≤ memory)
    (holds : Holds s.vector xs) (nonempty : 0 < xs.length) (place : index ≤ xs.length)
    (given : (i2cVectorShiftRight heap {s.vector with refused := false} index 1).1.refused = false) :
    ∃ w, vectorInsertAt heap s msg index = ({s with vector := w},-devOk) ∧ Holds w (xs.insertIdx index msg) := by
  obtain ⟨f,cells,filled⟩ := holds.cells
  obtain ⟨code,shifted⟩ := shiftRight_shifted served (holds_refused holds false) nonempty given
  refine ⟨_,?_,shifted_holds msg shifted place⟩
  rw [insertAt_shift heap index cells.data,if_pos code,code]

omit [DecidableEq Msg] in
theorem insertAt_good {heap : Nat → Bool} {index : Nat} (served : ∀ n, heap n = true → n ≤ memory) (good : Good s xs)
    (nonempty : 0 < xs.length) (place : index ≤ xs.length) (spare : Spare s xs msg) :
    (Fits heap s.vector ∧ Good (vectorInsertAt heap s msg index).1 (xs.insertIdx index msg) ∧
        (vectorInsertAt heap s msg index).2 = 0) ∨
      (¬ Fits heap s.vector ∧ (vectorInsertAt heap s msg index).1.vector.data = none ∧
        (vectorInsertAt heap s msg index).2 = -devNull) := by
  obtain ⟨fits,given⟩ | ⟨short,code,missing⟩ :=
    shiftRight_fits {s.vector with refused := false} heap index rfl
  · left
    obtain ⟨w,result,holds⟩ := insertAt_holds msg served good.holds nonempty place given
    rw [result]
    refine ⟨fits,⟨holds,?_,?_,good.sound⟩,rfl⟩
    · exact (List.perm_insertIdx msg xs place).nodup_iff.mpr (List.nodup_cons.mpr ⟨spare.fresh,good.distinct⟩)
    · intro m member
      obtain rfl | old := List.eq_or_mem_of_mem_insertIdx member
      · exact spare.live
      · exact good.live m old
  · right
    obtain ⟨f,cells,filled⟩ := good.holds.cells
    rw [insertAt_shift heap index cells.data,if_neg (by rw [code]; decide)]
    exact ⟨short,missing,code⟩

theorem setFeatures_good (features : Features) (good : Good s xs) (live : s.isLive p = true) :
    Good (s.setFeatures p features) xs := by
  obtain ⟨holds,distinct,lives,sound⟩ := use_good good live
  cases p <;> exact ⟨holds,distinct,lives,sound⟩

omit [DecidableEq Msg] in
theorem vectorError_null (heap : Nat → Bool) (block : Nat → Option Msg) (v : MsgVector Msg) :
    i2cVectorError heap block v (-devNull) = (v,-devNull) :=
  if_pos rfl

theorem give_good (features : Features) (good : Good s xs) (fresh : msg ∉ xs) : Good (s.give msg features) xs := by
  refine ⟨good.holds,good.distinct,?_,good.sound⟩
  intro m member
  have other : m ≠ msg := fun same => fresh (same ▸ member)
  exact (Function.update_of_ne other ..).trans (good.live m member)

/-- What is given for the call back makes it add a message. -/
def Answered (client : Client Msg) (turn : Turn Msg) (s : Core Msg) : Prop :=
  malloc s turn.malloc ≠ none ∧
    i2cCheckMsg turn.features (client.busFeatures &&& (I2C_MASTER_SUPPORT ||| I2C_SLAVE_SUPPORT)) = true

/-- A turn that begins with this state adds a message of a call back. -/
def Calls (client : Client Msg) (turn : Turn Msg) (s : Core Msg) (index : Nat) : Prop :=
  (∃ msg, (i2cVectorGet s.vector index).2 = .message msg ∧ turn.flags msg &&& I2C_MSG_CALL_BACK_MASK ≠ 0) ∧
    Answered client turn s

/-- The heap has the room for the message that the turn adds. -/
def Room (client : Client Msg) (turn : Turn Msg) (s : Core Msg) (index : Nat) : Prop :=
  Calls client turn s index → Fits turn.insert s.vector

theorem callBack_good (client : Client Msg) (turn : Turn Msg) {index : Nat}
    (served : ∀ n, turn.insert n = true → n ≤ memory)
    (good : Good s xs) (there : xs[index]? = some msg) :
    ((Answered client turn s → Fits turn.insert s.vector) ∧
        ∃ ys, Good (callBack garbage client turn s (.message msg) index).1 ys) ∨
      (¬ (Answered client turn s → Fits turn.insert s.vector) ∧
        (callBack garbage client turn s (.message msg) index).1.vector.data = none ∧
        (callBack garbage client turn s (.message msg) index).2 = none) := by
  obtain ⟨inside,rfl⟩ := List.getElem?_eq_some_iff.mp there
  unfold callBack
  split
  · rename_i none
    exact .inl ⟨fun answered => absurd none answered.1,xs,good⟩
  · rename_i newmsg given
    have blank : s.live newmsg = false := by
      simpa using (Option.filter_eq_some_iff.mp given).2
    have fresh : newmsg ∉ xs := by
      intro member
      cases blank.symm.trans (good.live newmsg member)
    have made : Good (s.give newmsg turn.features) xs := give_good turn.features good fresh
    have live : (s.give newmsg turn.features).live newmsg = true := Function.update_self ..
    have vector : (s.give newmsg turn.features).vector = s.vector := rfl
    generalize s.give newmsg turn.features = t at made live vector ⊢
    have used : Good (t.use (.message newmsg)) xs := use_good made live
    dsimp only
    split
    · rename_i checked
      have answered : Answered client turn s := ⟨by rw [given]; exact Option.some_ne_none _,checked⟩
      have done : Good (setDone garbage ((t.use (.message newmsg)).use (.message xs[index])) (.message xs[index])) xs :=
        setFeatures_good _ (use_good used (made.live _ (List.getElem_mem inside))) (made.live _ (List.getElem_mem inside))
      have set := setFeatures_good (p := .message newmsg) (turn.features &&& ~~~I2C_MSG_DONE_FLAG) done live
      have kept : ((setDone garbage ((t.use (.message newmsg)).use (.message xs[index])) (.message xs[index])).setFeatures
        (.message newmsg) (turn.features &&& ~~~I2C_MSG_DONE_FLAG)).live newmsg = true := live
      have same : ((setDone garbage ((t.use (.message newmsg)).use (.message xs[index])) (.message xs[index])).setFeatures
        (.message newmsg) (turn.features &&& ~~~I2C_MSG_DONE_FLAG)).vector = s.vector := vector
      generalize (setDone garbage ((t.use (.message newmsg)).use (.message xs[index])) (.message xs[index])).setFeatures
        (.message newmsg) (turn.features &&& ~~~I2C_MSG_DONE_FLAG) = u at set kept same ⊢
      have small := good.small
      have behind : size (index + 1) = index + 1 := Nat.mod_eq_of_lt (by omega)
      rw [behind]
      obtain ⟨fits,inserted,code⟩ | ⟨short,missing,code⟩ :=
        insertAt_good served set (by omega) (show index + 1 ≤ xs.length by omega) ⟨kept,fresh⟩
      · rw [if_neg (not_not_intro code)]
        exact .inl ⟨fun _ => same ▸ fits,_,inserted⟩
      · rw [if_pos (by rw [code]; decide),code,vectorError_null]
        exact .inr ⟨fun room => short (same ▸ room answered),missing,rfl⟩
    · rename_i unfit
      exact .inl ⟨fun answered => absurd answered.2 unfit,xs,free_good used live fresh⟩

theorem turnCall_good (client : Client Msg) (turn : Turn Msg) (index : Nat) (rc : Int)
    (served : ∀ n, turn.insert n = true → n ≤ memory) (good : Good s xs) :
    (Room client turn s index ∧ ∃ ys, Good (turnCall garbage client turn s index rc).1 ys) ∨
      (¬ Room client turn s index ∧ (turnCall garbage client turn s index rc).1.vector.data = none ∧
        (turnCall garbage client turn s index rc).2 = none) := by
  have flagged : Good ({s with features := turn.flags} : Core Msg) xs :=
    ⟨good.holds,good.distinct,good.live,good.sound⟩
  have found : (i2cVectorGet s.vector index).2 = .of xs[index]? := congrArg Prod.snd (get_good good index)
  unfold turnCall
  rw [get_good flagged]
  unfold Room Calls
  rw [found]
  cases there : xs[index]? with
  | none =>
    have nothing : ¬ (0 : Features) &&& I2C_MSG_CALL_BACK_MASK ≠ 0 := by decide
    dsimp only [Pointer.of,i2cMsgFeatures]
    rw [if_neg nothing]
    refine .inl ⟨?_,xs,flagged⟩
    rintro ⟨⟨msg,impossible,_⟩,_⟩
    cases impossible
  | some msg =>
    have used : Good (({s with features := turn.flags} : Core Msg).use (.message msg)) xs :=
      use_good flagged (flagged.live msg (List.mem_of_getElem? there))
    dsimp only [Pointer.of,i2cMsgFeatures]
    split
    · rename_i asked
      have own {fits : Prop} : ((∃ m, Pointer.message msg = .message m ∧ turn.flags m &&& I2C_MSG_CALL_BACK_MASK ≠ 0) ∧
          Answered client turn s → fits) ↔ (Answered client turn s → fits) :=
        ⟨fun room answered => room ⟨⟨msg,rfl,asked⟩,answered⟩,fun room both => room both.2⟩
      rw [own]
      exact callBack_good garbage client turn served used there
    · rename_i silent
      refine .inl ⟨?_,xs,used⟩
      rintro ⟨⟨m,same,asked⟩,_⟩
      cases same
      exact absurd asked silent

theorem turnUpdate_good (client : Client Msg) (turn : Turn Msg) (index : Nat) (good : Good s xs) :
    ∃ ys, Good (turnUpdate garbage client turn s index).1 ys := by
  rw [turnUpdate_core]
  split
  · exact i2cUpdate_good garbage turn.reshape client.master good
  · exact ⟨xs,good⟩

/-- Each turn that the loop begins has the room for the message that it adds. -/
def Granted (client : Client Msg) (turns : List (Turn Msg)) (s : Core Msg) (index : Nat) (rc : Int) : Prop :=
  ∀ before turn after t, turns = before ++ turn::after → loop garbage client before s index rc = (t,false) →
    Room client turn t ((before.map Turn.index).getLastD index)

theorem granted_nil (client : Client Msg) (s : Core Msg) (index : Nat) (rc : Int) :
    Granted garbage client [] s index rc := by
  intro before turn after t parts
  simp at parts

theorem granted_ends {client : Client Msg} {turn : Turn Msg} {turns : List (Turn Msg)} {index : Nat} {rc : Int}
    (ends : ∀ later, loop garbage client (turn::later) s index rc = (t,true)) :
    Granted garbage client (turn::turns) s index rc ↔ Room client turn s index := by
  refine ⟨fun granted => granted [] turn turns s rfl rfl,fun room before last after u parts begins => ?_⟩
  cases before with
  | nil =>
    obtain ⟨rfl,-⟩ := List.cons.inj parts
    cases begins
    exact room
  | cons first before =>
    obtain ⟨rfl,-⟩ := List.cons.inj parts
    rw [ends] at begins
    cases begins

theorem granted_goes {client : Client Msg} {turn : Turn Msg} {turns : List (Turn Msg)} {index : Nat} {rc : Int}
    (goes : ∀ later, loop garbage client (turn::later) s index rc =
      loop garbage client later t turn.index turn.resumed) :
    Granted garbage client (turn::turns) s index rc ↔
      Room client turn s index ∧ Granted garbage client turns t turn.index turn.resumed := by
  constructor
  · refine fun granted => ⟨granted [] turn turns s rfl rfl,fun before last after u parts begins => ?_⟩
    have room := granted (turn::before) last after u (congrArg (turn::·) parts) ((goes before).trans begins)
    rwa [List.map_cons,List.getLastD_cons] at room
  · rintro ⟨room,rest⟩ before last after u parts begins
    cases before with
    | nil =>
      obtain ⟨rfl,-⟩ := List.cons.inj parts
      cases begins
      exact room
    | cons first before =>
      obtain ⟨rfl,behind⟩ := List.cons.inj parts
      rw [List.map_cons,List.getLastD_cons]
      exact rest before last after u behind ((goes before).symm.trans begins)

/-- What one turn of the loop leaves, and whether the loop goes on. -/
theorem turn_good (client : Client Msg) (turn : Turn Msg) (index : Nat) (rc : Int)
    (served : ∀ n, turn.insert n = true → n ≤ memory) (good : Good s xs) :
    ∃ t, (¬ Room client turn s index ∧ t.vector.data = none ∧
        ∀ later, loop garbage client (turn::later) s index rc = (t,true)) ∨
      ∃ ys, Room client turn s index ∧ Good t ys ∧
        ((∀ later, loop garbage client (turn::later) s index rc = (t,true)) ∨
          ∀ later, loop garbage client (turn::later) s index rc =
            loop garbage client later t turn.index turn.resumed) := by
  have called := turnCall_good garbage client turn index rc served good
  generalize result : turnCall garbage client turn s index rc = r at called
  obtain ⟨t,_ | ⟨next,rc⟩⟩ := r
  · have ends (later : List (Turn Msg)) : loop garbage client (turn::later) s index rc = (t,true) := by
      rw [loop,result]
    refine ⟨t,?_⟩
    obtain ⟨room,ys,called⟩ | ⟨short,missing,_⟩ := called
    · exact .inr ⟨ys,room,called,.inl ends⟩
    · exact .inl ⟨short,missing,ends⟩
  · obtain ⟨room,ys,called⟩ | ⟨_,_,impossible⟩ := called
    · obtain ⟨zs,updated⟩ := turnUpdate_good garbage client turn next called
      refine ⟨_,.inr ⟨zs,room,updated,?_⟩⟩
      by_cases more : (turnUpdate garbage client turn t next).2 < (turnUpdate garbage client turn t next).1.vector.length ∧
          rc = 0
      · by_cases resumes : turn.index ≠ 65535 ∧ turn.index < (turnUpdate garbage client turn t next).1.vector.length ∧
            turn.resumed = 0
        · refine .inr fun later => ?_
          rw [loop,result]
          dsimp only
          rw [if_pos more,if_pos resumes]
        · refine .inl fun later => ?_
          rw [loop,result]
          dsimp only
          rw [if_pos more,if_neg resumes]
      · refine .inl fun later => ?_
        rw [loop,result]
        dsimp only
        rw [if_neg more]
    · cases impossible

theorem loop_good (client : Client Msg) (turns : List (Turn Msg)) (index : Nat) (rc : Int)
    (served : ∀ turn ∈ turns, ∀ n, turn.insert n = true → n ≤ memory) (good : Good s xs) :
    (Granted garbage client turns s index rc ∧ ∃ ys, Good (loop garbage client turns s index rc).1 ys) ∨
      (¬ Granted garbage client turns s index rc ∧ (loop garbage client turns s index rc).1.vector.data = none ∧
        (loop garbage client turns s index rc).2 = true) := by
  induction turns generalizing s xs index rc with
  | nil => exact .inl ⟨granted_nil garbage client s index rc,xs,good⟩
  | cons turn turns ih =>
    obtain ⟨t,⟨short,missing,ends⟩ | ⟨ys,room,kept,ends | goes⟩⟩ :=
      turn_good garbage client turn index rc (served turn (by simp)) good
    · rw [granted_ends garbage ends,ends]
      exact .inr ⟨short,missing,rfl⟩
    · rw [granted_ends garbage ends,ends]
      exact .inl ⟨room,ys,kept⟩
    · rw [granted_goes garbage goes,goes,and_iff_right room]
      exact ih turn.index turn.resumed (fun turn member => served turn (by simp [member])) kept

theorem afterXfer_sound (client : Client Msg) (xfer : Xfer Msg)
    (served : ∀ turn ∈ xfer.turns, ∀ n, turn.insert n = true → n ≤ memory) (good : Good s xs) :
    Sound (afterXfer garbage client xfer s) ↔ (xfer.result = 0 ∧ xfer.index ≠ 65535 →
      Granted garbage client xfer.turns {s with features := xfer.flags} xfer.index xfer.result) := by
  have flagged : Good ({s with features := xfer.flags} : Core Msg) xs :=
    ⟨good.holds,good.distinct,good.live,good.sound⟩
  have updated {t : Core Msg} {ys : List Msg} (kept : Good t ys) (ended : Bool) : Sound (if ended then
      (i2cUpdate garbage xfer.reshape client.master {t with features := xfer.flagsAfter}).1 else t) := by
    have again : Good ({t with features := xfer.flagsAfter} : Core Msg) ys :=
      ⟨kept.holds,kept.distinct,kept.live,kept.sound⟩
    obtain ⟨zs,updated⟩ := i2cUpdate_good garbage xfer.reshape client.master again
    split
    · exact updated.sound
    · exact kept.sound
  unfold afterXfer
  dsimp only
  by_cases taken : xfer.result = 0 ∧ xfer.index ≠ 65535
  · rw [if_pos taken]
    obtain ⟨granted,ys,kept⟩ | ⟨short,missing,ended⟩ :=
      loop_good garbage client xfer.turns xfer.index xfer.result served flagged
    · exact iff_of_true (updated kept _) fun _ => granted
    · rw [if_pos ended]
      refine iff_of_false ?_ fun granted => short (granted taken)
      exact cleanup_unsound garbage xfer.reshape client.master missing
  · rw [if_neg taken]
    exact iff_of_true (updated flagged true) fun impossible => absurd impossible taken

omit [DecidableEq Msg] in
theorem addEntry_refused (i2cMsgIsMaster : Msg → Bool) (heap : Nat → Bool) (v : MsgVector Msg) (msg : Msg) :
    (addEntry i2cMsgIsMaster heap v msg false).refused = v.refused := by
  unfold addEntry
  split <;> rfl

omit [DecidableEq Msg] in
/-- A slave's message that is refused its room is not added. -/
theorem add_refused {v : MsgVector Msg} {i2cMsgIsMaster : Msg → Bool} {heap : Nat → Bool} (holds : Holds v xs)
    (calm : v.refused = false) (refused : (i2cVectorAdd i2cMsgIsMaster heap v msg false).1.refused = true) :
    Holds (i2cVectorAdd i2cMsgIsMaster heap v msg false).1 xs ∧ (i2cVectorAdd i2cMsgIsMaster heap v msg false).2 = -devNull := by
  obtain ⟨f,cells,filled⟩ := holds.cells
  have data := cells.data
  have ordered : ¬ v.limit < v.length := by
    rw [holds.length]
    exact Nat.not_lt.mpr holds.within
  by_cases full : v.length = v.limit
  · cases block : heap (size (size (v.limit + defaultMsgLimit) * entrySize)) with
    | false =>
      have same : i2cVectorAdd i2cMsgIsMaster heap v msg false = ({v with refused := true},-devNull) := by
        simp [i2cVectorAdd,data,full,MsgVector.realloc,block]
      rw [same]
      exact ⟨holds_refused holds true,rfl⟩
    | true =>
      simp only [i2cVectorAdd,data,if_neg ordered,if_pos full,MsgVector.realloc,block,if_true,addEntry_refused,calm] at refused
      cases refused
  · simp only [i2cVectorAdd,data,if_neg ordered,if_neg full,addEntry_refused,calm] at refused
    cases refused

omit [DecidableEq Msg] in
theorem vectorAdd_good {heap : Nat → Bool} (served : ∀ n, heap n = true → n ≤ memory) (good : Good s xs)
    (spare : Spare s xs msg) :
    (Good (vectorAdd heap s msg false).1 (xs ++ [msg]) ∧ (vectorAdd heap s msg false).2 = 0) ∨
      (Good (vectorAdd heap s msg false).1 xs ∧ (vectorAdd heap s msg false).2 = -devNull) := by
  have clear : Holds {s.vector with refused := false} ([] ++ xs) := holds_refused good.holds false
  have more : (xs ++ [msg]).Nodup := good.distinct.append (List.nodup_singleton msg) (List.disjoint_singleton.mpr spare.fresh)
  have lives : ∀ m ∈ xs ++ [msg], s.live m = true := by
    intro m member
    obtain old | new := List.mem_append.mp member
    · exact good.live m old
    · exact List.mem_singleton.mp new ▸ spare.live
  cases refused : (i2cVectorAdd (fun m => isMaster (s.features m)) heap {s.vector with refused := false} msg false).1.refused with
  | false =>
    have blind : i2cVectorAdd (fun m => isMaster (s.features m)) heap {s.vector with refused := false} msg false =
      i2cVectorAdd (fun _ => false) heap {s.vector with refused := false} msg false := rfl
    rw [blind] at refused
    obtain ⟨added,code⟩ := add_holds served clear (by simp) (by simp) refused
    exact .inl ⟨⟨added,more,lives,good.sound⟩,code⟩
  | true =>
    obtain ⟨kept,code⟩ := add_refused clear rfl refused
    exact .inr ⟨⟨kept,good.distinct,good.live,good.sound⟩,code⟩

/-- The vector may not be there yet. -/
inductive Ready (s : Core Msg) : List Msg → Prop where
  | blank (blank : Blank s.vector) (sound : Sound s) : Ready s []
  | good {xs : List Msg} (good : Good s xs) : Ready s xs

omit [DecidableEq Msg] in
theorem Ready.sound (ready : Ready s xs) : Sound s := by
  cases ready with
  | blank blank sound => exact sound
  | good good => exact good.sound

omit [DecidableEq Msg] in
theorem use_ready (ready : Ready s xs) (live : s.isLive p = true) : Ready (s.use p) xs := by
  cases ready with
  | blank blank sound => exact .blank blank (use_sound sound live)
  | good good => exact .good (use_good good live)

theorem setFeatures_ready (features : Features) (ready : Ready s xs) (live : s.isLive p = true) :
    Ready (s.setFeatures p features) xs := by
  cases ready with
  | blank blank sound => cases p <;> exact .blank blank (use_sound sound live)
  | good good => exact .good (setFeatures_good features good live)

theorem free_ready (ready : Ready s xs) (spare : Spare s xs msg) : Ready (s.free (.message msg)) xs := by
  cases ready with
  | blank blank sound => exact .blank blank (use_sound sound spare.live)
  | good good => exact .good (free_good good spare.live spare.fresh)

/-- What the heap has while a message is added. -/
structure Served (q : Queued Msg) : Prop where
  heap : ∀ n, q.heap n = true → n ≤ memory
  again : ∀ n, q.again n = true → n ≤ memory

/-- The messages of the client that wait behind `added`. -/
def Waiting (s : Core Msg) (xs : List Msg) (qs : List (Queued Msg)) : Prop :=
  (qs.map Queued.msg).Nodup ∧ ∀ q ∈ qs, Served q ∧ Spare s xs q.msg

omit [DecidableEq Msg] in
theorem waiting_next {q : Queued Msg} {qs : List (Queued Msg)} {ys : List Msg} (waiting : Waiting s xs (q::qs))
    (live : ∀ m, m ≠ q.msg → t.live m = s.live m) (added : ∀ m ∈ ys, m = q.msg ∨ m ∈ xs) : Waiting t ys qs := by
  obtain ⟨first,distinct⟩ := List.nodup_cons.mp waiting.1
  refine ⟨distinct,fun later member => ?_⟩
  obtain ⟨served,spare⟩ := waiting.2 later (List.mem_cons_of_mem q member)
  have other : later.msg ≠ q.msg := fun same => first (same ▸ List.mem_map_of_mem member)
  refine ⟨served,(live _ other).trans spare.live,fun there => ?_⟩
  obtain same | old := added _ there
  · exact other same
  · exact spare.fresh old

omit [DecidableEq Msg] in
theorem vectorAdd_blank (heap : Nat → Bool) (missing : s.vector.data = none) :
    vectorAdd heap s msg false = ({s with vector := {s.vector with refused := false}},-devNoinit) := by
  simp [vectorAdd,i2cVectorAdd,missing]

omit [DecidableEq Msg] in
theorem vectorError_noinit (heap : Nat → Bool) (block : Nat → Option Msg) (v : MsgVector Msg) :
    i2cVectorError heap block v (-devNoinit) = i2cCreateMsgVector heap v block :=
  rfl

omit [DecidableEq Msg] in
theorem create_refused {v : MsgVector Msg} {heap : Nat → Bool} {block : Nat → Option Msg} (blank : Blank v)
    (calm : v.refused = false)
    (refused : (i2cCreateMsgVector heap v block).1.refused = true) :
    (i2cCreateMsgVector heap v block).2 = -devNull ∧ Blank (i2cCreateMsgVector heap v block).1 := by
  unfold i2cCreateMsgVector at refused ⊢
  dsimp only at refused ⊢
  split
  · rename_i given
    rw [if_pos given] at refused
    cases calm.symm.trans refused
  · exact ⟨rfl,rfl,blank.length,blank.calm⟩

theorem addMessages_ready (client : Client Msg) (qs : List (Queued Msg)) (rc : Int) (slave : client.master = false)
    (waiting : Waiting s xs qs) (ready : Ready s xs) (begun : 0 ≤ rc → Good s xs) :
    ∃ ys, Ready (addMessages client qs s rc).1 ys ∧ (0 ≤ (addMessages client qs s rc).2 → Good (addMessages client qs s rc).1 ys) := by
  induction qs generalizing s xs rc with
  | nil => exact ⟨xs,ready,begun⟩
  | cons q qs ih =>
    have negative : ¬ 0 ≤ -devInternal := by decide
    obtain ⟨served,spare⟩ := waiting.2 q List.mem_cons_self
    have used : Ready (s.use (.message q.msg)) xs := use_ready ready spare.live
    unfold addMessages
    dsimp only
    split
    · generalize (if s.features q.msg &&& I2C_MSG_CALL_BACK_MASK ≠ 0 ∧ ¬ client.callsBack = true then
        s.features q.msg &&& ~~~I2C_MSG_CALL_BACK_MASK else s.features q.msg) = features
      have set : Ready ((s.use (.message q.msg)).setFeatures (.message q.msg) features) xs := setFeatures_ready features used spare.live
      have kept : ((s.use (.message q.msg)).setFeatures (.message q.msg) features).live = s.live := rfl
      generalize (s.use (.message q.msg)).setFeatures (.message q.msg) features = u at set kept ⊢
      rw [slave]
      have spare : Spare u xs q.msg := ⟨kept ▸ spare.live,spare.fresh⟩
      have next {ys : List Msg} {t : Core Msg} (live : t.live = u.live) (added : ∀ m ∈ ys, m = q.msg ∨ m ∈ xs) : Waiting t ys qs :=
        waiting_next waiting (fun m other => congrFun (live.trans kept) m) added
      cases set with
      | blank blank sound =>
        rw [vectorAdd_blank q.heap blank.data]
        dsimp only
        rw [if_pos (by decide),vectorError_noinit]
        have empty : Blank ({u.vector with refused := false} : MsgVector Msg) := ⟨blank.data,blank.length,blank.calm⟩
        have calm : ({u.vector with refused := false} : MsgVector Msg).refused = false := rfl
        generalize ({u.vector with refused := false} : MsgVector Msg) = v at empty calm ⊢
        cases refused : (i2cCreateMsgVector q.created v q.block).1.refused with
        | true =>
          obtain ⟨code,missing⟩ := create_refused empty calm refused
          rw [if_neg (by rw [code]; decide)]
          have stays : Ready ({u with vector := (i2cCreateMsgVector q.created v q.block).1} : Core Msg) [] :=
            .blank missing sound
          exact ⟨[],free_ready stays ⟨spare.live,spare.fresh⟩,fun impossible => absurd impossible negative⟩
        | false =>
          obtain ⟨holds,code⟩ := create_holds empty.calm refused
          have created : Good ({u with vector := (i2cCreateMsgVector q.created v q.block).1} : Core Msg) [] :=
            ⟨holds,List.nodup_nil,by simp,sound⟩
          have zero : (i2cCreateMsgVector q.created v q.block).2 = 0 := code
          rw [if_pos zero]
          obtain ⟨added,_⟩ | ⟨kept,_⟩ := vectorAdd_good served.again created ⟨spare.live,spare.fresh⟩
          · exact ih _ (next rfl (by simp)) (.good added) (fun _ => added)
          · exact ih _ (next rfl (by simp)) (.good kept) (fun _ => kept)
      | good good =>
        obtain ⟨added,code⟩ | ⟨refused,code⟩ := vectorAdd_good served.heap good spare
        · rw [if_neg (not_not_intro code)]
          exact ih _ (next rfl (by simp [or_comm])) (.good added) (fun _ => added)
        · rw [if_pos (by rw [code]; decide),code,vectorError_null]
          have freed := free_good refused spare.live spare.fresh
          exact ⟨xs,.good freed,fun _ => freed⟩
    · have freed := free_ready used ⟨spare.live,spare.fresh⟩
      have next : Waiting ((s.use (.message q.msg)).free (.message q.msg)) xs qs :=
        waiting_next waiting (fun m other => Function.update_of_ne other ..) (fun m member => .inr member)
      exact ih _ next freed (fun impossible => absurd impossible negative)

/-- The heaps of a transfer have no block larger than the memory. -/
structure Heaps (client : Client Msg) (xfer : Option (Xfer Msg)) : Prop where
  queued : ∀ q ∈ client.queued, Served q
  turns : ∀ x ∈ xfer, ∀ turn ∈ x.turns, ∀ n, turn.insert n = true → n ≤ memory

/-- Each message that a call back adds in the transfer of a slave has its room. -/
def CallsGranted (client : Client Msg) (xfer : Option (Xfer Msg)) (s : Core Msg) : Prop :=
  ∀ x ∈ xfer, 0 ≤ (addMessages client client.queued s (-devInternal)).2 → x.result = 0 ∧ x.index ≠ 65535 →
    Granted garbage client x.turns {(addMessages client client.queued s (-devInternal)).1 with features := x.flags}
      x.index x.result

theorem slave_sound (heap : Nat → Bool) (client : Client Msg) (busy : Bool) (xfer : Option (Xfer Msg))
    (slave : client.master = false) (blank : Blank s.vector) (sound : Sound s)
    (distinct : (client.queued.map Queued.msg).Nodup)
    (live : ∀ q ∈ client.queued, s.live q.msg = true) (heaps : Heaps client xfer) :
    Sound (transfer garbage heap client busy xfer s) ↔ CallsGranted garbage client xfer s := by
  have waiting : Waiting s [] client.queued :=
    ⟨distinct,fun q member => ⟨heaps.queued q member,live q member,List.not_mem_nil⟩⟩
  obtain ⟨ys,ready,begun⟩ := addMessages_ready client client.queued (-devInternal) slave waiting (.blank blank sound)
    (fun impossible => absurd impossible (by decide))
  have skipped : ¬ (client.master = true ∧ ¬ busy = true) := by simp [slave]
  unfold transfer CallsGranted
  dsimp only
  rw [if_neg skipped]
  split
  · rename_i negative
    exact iff_of_true ready.sound fun x _ nonnegative => absurd nonnegative (Int.not_le.mpr negative)
  · rename_i nonnegative
    split
    · exact iff_of_true ready.sound fun x impossible => nomatch impossible
    · rename_i x
      rw [afterXfer_sound garbage client x (heaps.turns x rfl) (begun (Int.not_lt.mp nonnegative))]
      refine ⟨fun granted y same _ taken => ?_,fun granted => granted x rfl (Int.not_lt.mp nonnegative)⟩
      obtain rfl := Option.some.inj same
      exact granted taken

/-- The first transfer on an adapter uses allocated messages only where it is that of a master that does not lock the
adapter, or that of a slave whose call backs have the room for their messages. -/
theorem first_transfer (garbage : Features) (heap : Nat → Bool) (client : Client Msg) (locked : Bool)
    (xfer : Option (Xfer Msg)) (s : Core Msg) (blank : Blank s.vector) (unused : s.uses = [])
    (distinct : (client.queued.map Queued.msg).Nodup) (live : ∀ q ∈ client.queued, s.live q.msg = true)
    (heaps : Heaps client xfer) :
    Sound (i2cStartXfer garbage heap client locked false xfer s) ↔
      if client.master then locked = false else CallsGranted garbage client xfer s := by
  have sound : Sound s := by
    rw [Sound,unused]
    exact fun use member => absurd member List.not_mem_nil
  cases kind : client.master with
  | true =>
    rw [if_pos rfl]
    cases locked with
    | true =>
      have same : i2cStartXfer garbage heap client true false xfer s = transfer garbage heap client false xfer s := by
        simp [i2cStartXfer,kind]
      rw [same]
      exact iff_of_false (master_unsound garbage heap client xfer kind blank) nofun
    | false =>
      have same : i2cStartXfer garbage heap client false false xfer s = s := by
        simp [i2cStartXfer,kind]
      rw [same]
      exact iff_of_true sound rfl
  | false =>
    have empty : firstWalk garbage false s.vector.length 0 s = (s,none) := by
      rw [blank.length]
      rfl
    have same : i2cStartXfer garbage heap client locked false xfer s = transfer garbage heap client false xfer s := by
      simp [i2cStartXfer,kind,i2cSlaveTmo,empty]
    rw [same,if_neg Bool.false_ne_true]
    exact slave_sound garbage heap client false xfer kind blank sound distinct live heaps

/-- An adapter behind `atmega_i2c_c0_hw_init`, and `n` messages of a client. -/
def fresh (n : Nat) (features : Features) : Core Nat where
  vector := ⟨0,0,none,0,false,false⟩
  features := fun _ => features
  live := fun msg => msg < n
  uses := []

def flushes (master : Bool) (n : Nat) : Client Nat where
  master := master
  callsBack := true
  busFeatures := I2C_MASTER_SUPPORT ||| I2C_SLAVE_SUPPORT
  queued := (List.range n).map fun msg => ⟨msg,roomy,roomy,fun _ => none,roomy⟩

theorem fresh_blank (n : Nat) (features : Features) : Blank (fresh n features).vector := ⟨rfl,rfl,rfl⟩

/-- Message 0 is transferred first, and its call back adds message 9. -/
def firstReply : Xfer Nat where
  flags := fun _ => I2C_MSG_SLAVE_MSG_MASK
  result := 0
  index := 0
  turns := [⟨fun msg => if msg = 0 then I2C_MSG_SLAVE_MSG_MASK ||| I2C_MSG_CALL_BACK_MASK else I2C_MSG_SLAVE_MSG_MASK,
    some 9,I2C_MSG_SLAVE_MSG_MASK,roomy,roomy,roomy,roomy,0,65535⟩]
  flagsAfter := fun _ => I2C_MSG_SLAVE_MSG_MASK
  reshape := roomy

theorem firstReply_heaps : Heaps (flushes false 9) (some firstReply) := by
  have roomy_memory : ∀ n, roomy n = true → n ≤ memory := fun n => of_decide_eq_true
  refine ⟨fun q member => ?_,fun x same turn member => ?_⟩
  · obtain ⟨msg,-,rfl⟩ := List.mem_map.mp member
    exact ⟨roomy_memory,roomy_memory⟩
  · obtain rfl := Option.some.inj same
    obtain rfl := List.mem_singleton.mp member
    exact roomy_memory

/-- The block has to grow for the message of the call back. -/
theorem firstReply_granted : CallsGranted 0 (flushes false 9) (some firstReply) (fresh 9 I2C_MSG_SLAVE_MSG_MASK) := by
  intro x same _ _ before turn after t parts begins
  obtain rfl := Option.some.inj same
  cases before with
  | nil =>
    obtain ⟨rfl,-⟩ := List.cons.inj parts
    obtain rfl := congrArg Prod.fst begins
    exact fun _ _ => by decide +kernel
  | cons first before => simp [firstReply] at parts

/-- The first messages are added for a slave. -/
theorem first_transfer_slave : Sound
    (i2cStartXfer 0 roomy (flushes false 9) true false (some firstReply) (fresh 9 I2C_MSG_SLAVE_MSG_MASK)) :=
  (first_transfer 0 roomy (flushes false 9) true (some firstReply) (fresh 9 I2C_MSG_SLAVE_MSG_MASK) (fresh_blank _ _) rfl
    (by decide) (by decide) firstReply_heaps).mpr firstReply_granted

/-- For a master the vector is cleaned up before it is there. -/
theorem first_transfer_master :
    ¬ Sound (i2cStartXfer 0 roomy (flushes true 1) true false none
      (fresh 1 (I2C_MSG_MASTER_MSG_MASK ||| I2C_MSG_TRANSMIT_MSG_MASK))) := by
  have same : i2cStartXfer 0 roomy (flushes true 1) true false none
        (fresh 1 (I2C_MSG_MASTER_MSG_MASK ||| I2C_MSG_TRANSMIT_MSG_MASK)) =
      transfer 0 roomy (flushes true 1) false none
        (fresh 1 (I2C_MSG_MASTER_MSG_MASK ||| I2C_MSG_TRANSMIT_MSG_MASK)) := by
    simp [i2cStartXfer,flushes]
  rw [same]
  exact master_unsound 0 roomy (flushes true 1) none rfl (fresh_blank _ _)

end BermudaOS.Dev.I2cCore
