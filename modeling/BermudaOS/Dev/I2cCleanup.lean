import BermudaOS.Dev.I2cCore

/-! The clean-up of an adapter: its messages of one kind that are done leave the vector and
are freed. The walk goes down from the last message, so what it deletes is behind it. -/
namespace BermudaOS.Dev.I2cCore
open I2cMsg AtmegaI2c

variable {Msg : Type} {s t u : Core Msg} {xs ys : List Msg} {msg : Msg} {features : Msg → Features} {master : Bool}

/-- A message that the clean-up of one kind leaves in the vector. -/
def stays (features : Msg → Features) (master : Bool) (msg : Msg) : Bool :=
  !(isMaster (features msg) == master && isDone (features msg))

theorem stays_false : stays features master msg = false ↔ isMaster (features msg) = master ∧ isDone (features msg) = true := by
  simp [stays]

/-- The uses of the messages by a clean-up: the features of each are read, and those that go
are deleted from the vector and freed too. -/
def cleanupUses (keep : Msg → Bool) (xs : List Msg) : List (Use Msg) :=
  xs.reverse.flatMap fun msg => List.replicate (if keep msg then 1 else 3) ⟨.message msg,true⟩

theorem cleanupUses_append (keep : Msg → Bool) (xs : List Msg) (msg : Msg) : cleanupUses keep (xs ++ [msg]) =
    List.replicate (if keep msg then 1 else 3) ⟨.message msg,true⟩ ++ cleanupUses keep xs := by
  simp [cleanupUses]

theorem cleanupUses_live {keep : Msg → Bool} {use : Use Msg} (member : use ∈ cleanupUses keep xs) : use.live = true := by
  obtain ⟨msg,_,inside⟩ := List.mem_flatMap.mp member
  rw [List.eq_of_mem_replicate inside]

structure Stored (s : Core Msg) (xs : List Msg) : Prop where
  holds : Holds s.vector xs
  distinct : xs.Nodup
  live : ∀ msg ∈ xs, s.live msg = true

theorem get_holds (holds : Holds s.vector xs) (index : Nat) : s.get index = (s,.of xs[index]?) := by
  obtain ⟨⟨f,cells,filled⟩,length,within⟩ := holds
  have data := cells.data
  by_cases inside : index < xs.length
  · have there : s.vector.entry index = xs[index]? := (entry_sound cells).trans (filled index inside)
    have same : i2cVectorGet s.vector index = (s.vector,.of xs[index]?) := by
      simp only [i2cVectorGet,data]
      rw [if_pos (by omega),touch_inside cells (by omega),there]
    rw [Core.get,same]
  · have same : i2cVectorGet s.vector index = (s.vector,.null) := by
      simp only [i2cVectorGet,data]
      rw [if_neg (by omega)]
    rw [Core.get,same,List.getElem?_eq_none (by omega)]
    rfl

theorem reshape_holds {v : MsgVector Msg} (heap : Nat → Bool) (holds : Holds v xs) : i2cVectorReshape heap v = v := by
  obtain ⟨⟨f,cells,filled⟩,length,within⟩ := holds
  have small := sound_limit cells
  have word : ¬ size (v.length + defaultMsgLimit) < v.length := by
    unfold size defaultMsgLimit
    omega
  rw [i2cVectorReshape,if_neg word]
  exact ite_self v

variable [DecidableEq Msg] (garbage : Features)

/-- What a clean-up of the messages changes beside the vector. -/
structure Freed (s t : Core Msg) (master : Bool) (xs : List Msg) : Prop where
  features : t.features = s.features
  live : ∀ msg, t.live msg = (s.live msg && !(decide (msg ∈ xs) && !stays s.features master msg))
  uses : t.uses = s.uses ++ cleanupUses (stays s.features master) xs

theorem Freed.nil (s : Core Msg) (master : Bool) : Freed s s master [] :=
  ⟨rfl,fun msg => by simp,by simp [cleanupUses]⟩

/-- The last message is cleaned up before those in front of it. -/
theorem Freed.append (step : Freed s t master [msg]) (rest : Freed t u master xs) : Freed s u master (xs ++ [msg]) := by
  obtain ⟨features,live,uses⟩ := rest
  rw [step.features] at live uses
  refine ⟨features.trans step.features,fun m => ?_,?_⟩
  · rw [live,step.live]
    cases s.live m <;> cases stays s.features master m <;> simp [Bool.and_comm]
  · rw [uses,step.uses,cleanupUses_append,List.append_assoc]
    simp [cleanupUses]

/-- What stands in front of the message and behind it stays allocated. -/
theorem Freed.stored (freed : Freed s t master [msg]) (stored : Stored s (xs ++ msg::ys))
    (holds : Holds t.vector (xs ++ ([msg].filter (stays s.features master) ++ ys))) :
    Stored t (xs ++ ([msg].filter (stays s.features master) ++ ys)) := by
  have fewer : (xs ++ ([msg].filter (stays s.features master) ++ ys)).Sublist (xs ++ msg::ys) :=
    (List.filter_sublist.append_right ys).append_left xs
  refine ⟨holds,stored.distinct.sublist fewer,fun m member => ?_⟩
  rw [freed.live,stored.live m (fewer.subset member),Bool.true_and,Bool.not_eq_true']
  by_cases own : m = msg
  · subst own
    have once := List.nodup_middle.mp stored.distinct
    have kept : m ∈ [m].filter (stays s.features master) := by
      simp only [List.mem_append] at member
      exact (member.resolve_left fun left => (List.nodup_cons.mp once).1 (by simp [left])).resolve_right
        fun right => (List.nodup_cons.mp once).1 (by simp [right])
    simp [(List.mem_filter.mp kept).2]
  · simp [own]

theorem cleanupStep_freed (master : Bool) (stored : Stored s (xs ++ msg::ys)) :
    Freed s (cleanupStep garbage master xs.length s) master [msg] ∧
      Holds (cleanupStep garbage master xs.length s).vector (xs ++ ([msg].filter (stays s.features master) ++ ys)) := by
  have live : s.live msg = true := stored.live msg (by simp)
  have there : (xs ++ msg::ys)[xs.length]? = some msg := by simp
  unfold cleanupStep
  rw [get_holds stored.holds,there]
  dsimp only [Pointer.of,i2cMsgFeatures]
  split
  · rename_i goes
    have gone := stays_false.mpr goes
    refine ⟨⟨rfl,fun m => ?_,?_⟩,?_⟩
    · by_cases own : m = msg
      · simp [own,gone,Core.free,Core.use]
      · simp [own,Core.free,Core.use]
    · simp [cleanupUses,gone,live,Core.free,Core.use,Core.isLive,List.replicate]
    · have order : (xs ++ msg::ys).eraseIdx xs.length = xs ++ ([msg].filter (stays s.features master) ++ ys) := by
        simp [List.eraseIdx_append_of_length_le,gone]
      exact order ▸ (deleteAt_holds stored.holds xs.length).1
  · rename_i remains
    have kept : stays s.features master msg = true := by
      rw [← Bool.not_eq_false]
      exact fun gone => remains (stays_false.mp gone)
    refine ⟨⟨rfl,fun m => ?_,?_⟩,?_⟩
    · by_cases own : m = msg
      · simp [own,kept,Core.use]
      · simp [own,Core.use]
    · simp [cleanupUses,kept,live,Core.use,Core.isLive]
    · have order : xs ++ msg::ys = xs ++ ([msg].filter (stays s.features master) ++ ys) := by simp [kept]
      exact order ▸ stored.holds

theorem cleanupWalk_freed (master : Bool) (i : Nat) (stored : Stored s (xs ++ ys)) (last : xs.length = i + 1) :
    Freed s (cleanupWalk garbage master i s) master xs ∧
      Holds (cleanupWalk garbage master i s).vector (xs.filter (stays s.features master) ++ ys) := by
  induction i generalizing s xs ys with
  | zero =>
    obtain ⟨msg,rfl⟩ := List.length_eq_one_iff.mp last
    exact show Freed s (cleanupStep garbage master ([] : List Msg).length s) master [msg] ∧ _ from cleanupStep_freed garbage master stored
  | succ i ih =>
    obtain rfl | ⟨front,msg,rfl⟩ := List.eq_nil_or_concat' xs
    · cases last
    · have first : front.length = i + 1 := by simpa using last
      rw [List.append_assoc] at stored
      obtain ⟨step,holds⟩ := cleanupStep_freed garbage master stored
      rw [first] at step holds
      obtain ⟨rest,left⟩ := ih (step.stored stored holds) first
      refine ⟨step.append rest,?_⟩
      rwa [step.features,← List.append_assoc,← List.filter_append] at left

/-- Where the vector is empty the loop begins behind the last index of all. -/
theorem cleanupWalk_empty (i : Nat) (holds : Holds s.vector []) : cleanupWalk garbage master i s = s := by
  have step (i : Nat) : cleanupStep garbage master i s = s := by
    unfold cleanupStep
    rw [get_holds holds]
    exact if_neg fun goes => absurd goes.2 (by decide)
  induction i with
  | zero => exact step 0
  | succ i ih => rw [cleanupWalk,step,ih]

omit [DecidableEq Msg] in
theorem reshaped_same (heap : Nat → Bool) (holds : Holds s.vector xs) :
    {s with vector := i2cVectorReshape heap s.vector} = s := by
  rw [reshape_holds heap holds]

theorem cleanup_freed (heap : Nat → Bool) (master : Bool) (stored : Stored s xs) :
    Freed s (i2cCleanupAdapterMsgs garbage heap master s) master xs ∧
      Holds (i2cCleanupAdapterMsgs garbage heap master s).vector (xs.filter (stays s.features master)) := by
  obtain ⟨f,cells,filled⟩ := stored.holds.cells
  have small := sound_limit cells
  have length := stored.holds.length
  have within := stored.holds.within
  have walked : Freed s (cleanupWalk garbage master (size (s.vector.length + 65535)) s) master xs ∧
      Holds (cleanupWalk garbage master (size (s.vector.length + 65535)) s).vector (xs.filter (stays s.features master)) := by
    cases xs with
    | nil =>
      rw [cleanupWalk_empty garbage _ stored.holds]
      exact ⟨.nil s master,stored.holds⟩
    | cons x ys =>
      have last : (x::ys).length = size (s.vector.length + 65535) + 1 := by
        rw [List.length_cons] at length within ⊢
        unfold size
        omega
      rw [← List.append_nil (x::ys)] at stored
      have walked := cleanupWalk_freed garbage master _ stored last
      rwa [List.append_nil] at walked
  have reshaped : i2cCleanupAdapterMsgs garbage heap master s = cleanupWalk garbage master (size (s.vector.length + 65535)) s :=
    reshaped_same heap walked.2
  rw [reshaped]
  exact walked

/-- The clean-up leaves the messages that are not both done and of the selected kind, in their
order, and frees each of the others once. -/
theorem cleanup_filter (garbage : Features) (heap : Nat → Bool) (master : Bool) (s : Core Msg) (xs : List Msg)
    (holds : Holds s.vector xs) (distinct : xs.Nodup) (live : ∀ msg ∈ xs, s.live msg = true) :
    let t := i2cCleanupAdapterMsgs garbage heap master s
    let keep := stays s.features master
    Holds t.vector (xs.filter keep) ∧ t.features = s.features ∧
      (∀ msg, t.live msg = true ↔ s.live msg = true ∧ ¬ (msg ∈ xs ∧ keep msg = false)) ∧
      t.uses = s.uses ++ cleanupUses keep xs := by
  obtain ⟨freed,left⟩ := cleanup_freed garbage heap master ⟨holds,distinct,live⟩
  refine ⟨left,freed.features,fun msg => ?_,freed.uses⟩
  rw [freed.live]
  simp [← imp_iff_not_or]

def vectorOf (xs : List Nat) : MsgVector Nat := ⟨xs.length,10,some (xs[·]?),10,false,false⟩

theorem vectorOf_holds (xs : List Nat) (short : xs.length ≤ 10) : Holds (vectorOf xs) xs :=
  ⟨⟨_,⟨rfl,Nat.le_refl _,show 10 * entrySize ≤ memory by decide,rfl⟩,fun _ _ => rfl⟩,rfl,short⟩

/-- Two messages of masters, the first of them done, and one of a slave that is done. -/
def threeMessages : Core Nat where
  vector := vectorOf [1,2,7]
  features msg := if msg = 1 then I2C_MSG_MASTER_MSG_MASK ||| I2C_MSG_DONE_FLAG
    else if msg = 2 then I2C_MSG_MASTER_MSG_MASK else I2C_MSG_DONE_FLAG
  live msg := msg = 1 ∨ msg = 2 ∨ msg = 7
  uses := []

theorem cleanup_filter_three : Holds (i2cCleanupAdapterMsgs 0 roomy true threeMessages).vector [2,7] :=
  (cleanup_filter 0 roomy true threeMessages [1,2,7] (vectorOf_holds _ (by decide)) (by decide) (by decide)).1

end BermudaOS.Dev.I2cCore
