import BermudaOS.Dev.I2cFirst

/-! The insertion of a message in the vector of an adapter, and the message that a call back
adds behind the one that asked for it. -/
namespace BermudaOS.Dev.I2cCore
open I2cMsg AtmegaI2c

variable {Msg : Type} {s : Core Msg} {xs : List Msg} {msg : Msg} {v : MsgVector Msg} {heap : Nat → Bool} {index num : Nat}

/-- The insertion has been done, with no access beyond the limit. -/
structure Inserted (s t : Core Msg) (rc : Int) (xs : List Msg) (msg : Msg) (index : Nat) : Prop where
  code : rc = -devOk
  holds : Holds t.vector (xs.insertIdx index msg)
  longer : t.vector.length = s.vector.length + 1
  within : t.vector.length ≤ t.vector.limit
  inside : t.vector.strayed = false

theorem shiftRightWalk_strayed (last : Nat) (strayed : v.strayed = true) :
    (shiftRightWalk index num last v).strayed = true := by
  induction last generalizing v with
  | zero =>
    unfold shiftRightWalk
    split
    · simp [MsgVector.write,MsgVector.touch,strayed]
    · exact strayed
  | succ last ih =>
    unfold shiftRightWalk
    split
    · apply ih
      simp [MsgVector.write,MsgVector.touch,strayed]
    · exact strayed

/-- The loop over an empty vector begins at the last index of all. -/
theorem shiftRightWalk_empty {last : Nat} (start : last = 65535) (place : index ≤ 65535) (small : v.limit ≤ 65535) :
    (shiftRightWalk index num last v).strayed = true := by
  obtain ⟨last,rfl⟩ := Nat.exists_eq_add_one_of_ne_zero (show last ≠ 0 by omega)
  rw [shiftRightWalk,if_pos (show index ≤ last + 1 by omega)]
  apply shiftRightWalk_strayed
  simp [MsgVector.write,MsgVector.touch,show v.limit ≤ last + 1 by omega]

theorem shiftedRight_strayed (length : v.length = 0) (small : v.limit ≤ 65535) : (shiftedRight 0 num v).strayed = true := by
  have start : size (v.length + 65535) = 65535 := by
    rw [length]
    rfl
  rw [shiftedRight,lengthen_strayed]
  exact shiftRightWalk_empty start (Nat.zero_le _) small

theorem shiftRight_strays (served : ∀ n, heap n = true → n ≤ memory) (holds : Holds v [])
    (given : (i2cVectorShiftRight heap v 0 1).1.refused = false) :
    (i2cVectorShiftRight heap v 0 1).2 = -devOk ∧ (i2cVectorShiftRight heap v 0 1).1.strayed = true := by
  obtain ⟨⟨f,cells,filled⟩,length,within⟩ := holds
  have small := sound_limit cells
  by_cases full : v.limit ≤ size (v.length + 1)
  · cases block : heap (size (size (v.limit + 1) * entrySize)) with
    | false => simp [i2cVectorShiftRight,full,MsgVector.realloc,block] at given
    | true =>
      obtain ⟨word,grown⟩ := realloc_sound served cells (by decide) block
      have bound := sound_limit grown
      rw [shiftRight_grown full block,word]
      exact ⟨rfl,shiftedRight_strayed length (show v.limit + 1 ≤ 65535 by simp only at bound; omega)⟩
  · rw [shiftRight_kept full]
    exact ⟨rfl,shiftedRight_strayed length (by omega)⟩

theorem insertAt_empty (served : ∀ n, heap n = true → n ≤ memory) (holds : Holds s.vector [])
    (given : (vectorInsertAt heap s msg 0).1.vector.refused = false) :
    (vectorInsertAt heap s msg 0).1.vector.strayed = true := by
  obtain ⟨f,cells,filled⟩ := holds.cells
  rw [insertAt_shift heap 0 cells.data] at given ⊢
  have granted : (i2cVectorShiftRight heap {s.vector with refused := false} 0 1).1.refused = false := by
    split at given <;> exact given
  obtain ⟨code,strayed⟩ := shiftRight_strays served (holds_refused holds false) granted
  rw [if_pos code]
  simp [MsgVector.write,MsgVector.touch,strayed]

/-- An insertion for which the heap has room is right, unless the vector is empty. -/
theorem insertAt_inserts (heap : Nat → Bool) (s : Core Msg) (xs : List Msg) (msg : Msg) (index : Nat)
    (served : ∀ n, heap n = true → n ≤ memory) (holds : Holds s.vector xs) (place : index ≤ xs.length)
    (given : (vectorInsertAt heap s msg index).1.vector.refused = false) :
    Inserted s (vectorInsertAt heap s msg index).1 (vectorInsertAt heap s msg index).2 xs msg index ↔ xs ≠ [] := by
  constructor
  · rintro inserted rfl
    obtain rfl := Nat.le_zero.mp place
    cases (insertAt_empty served holds given).symm.trans inserted.inside
  · intro nonempty
    have granted : (i2cVectorShiftRight heap {s.vector with refused := false} index 1).1.refused = false := by
      obtain ⟨f,cells,filled⟩ := holds.cells
      rw [insertAt_shift heap index cells.data] at given
      split at given <;> exact given
    obtain ⟨w,result,inserted⟩ := insertAt_holds msg served holds (List.length_pos_iff.mpr nonempty) place granted
    obtain ⟨g,cells,_⟩ := inserted.cells
    have longer := List.length_insertIdx_of_le_length place msg
    rw [result]
    refine ⟨rfl,inserted,?_,?_,cells.kept⟩
    · rw [holds.length,← longer]
      exact inserted.length
    · rw [inserted.length]
      exact inserted.within

def storing (xs : List Nat) : Core Nat := ⟨vectorOf xs,fun _ => 0,fun msg => decide (msg ∈ xs),[]⟩

theorem roomy_served : ∀ n, roomy n = true → n ≤ memory := fun _ => of_decide_eq_true

theorem insertAt_inserts_middle : Inserted (storing [1,2]) (vectorInsertAt roomy (storing [1,2]) 7 1).1
    (vectorInsertAt roomy (storing [1,2]) 7 1).2 [1,2] 7 1 :=
  (insertAt_inserts roomy (storing [1,2]) [1,2] 7 1 roomy_served (vectorOf_holds _ (by decide)) (by decide)
    (by decide)).mpr (by decide)

theorem insertAt_granted {f : Nat → Option Msg} (data : s.vector.data = some f) (room : size (s.vector.length + 1) < s.vector.limit) :
    (vectorInsertAt heap s msg index).1.vector.refused = false := by
  have granted : (i2cVectorShiftRight heap {s.vector with refused := false} index 1).1.refused = false := by
    rw [shiftRight_kept (v := {s.vector with refused := false}) (Nat.not_le_of_lt room)]
    exact shiftedRight_refused ..
  rw [insertAt_shift heap index data]
  split <;> exact granted

theorem insertAt_strays : Holds (storing []).vector [] ∧ (vectorInsertAt roomy (storing []) 7 0).1.vector.refused = false ∧
    (vectorInsertAt roomy (storing []) 7 0).1.vector.strayed = true ∧
    ¬ Inserted (storing []) (vectorInsertAt roomy (storing []) 7 0).1 (vectorInsertAt roomy (storing []) 7 0).2 [] 7 0 := by
  have holds : Holds (storing []).vector [] := vectorOf_holds _ (by decide)
  have given : (vectorInsertAt roomy (storing []) 7 0).1.vector.refused = false := by
    apply insertAt_granted (s := storing []) rfl
    decide
  have strayed := insertAt_empty roomy_served holds given
  refine ⟨holds,given,strayed,fun inserted => ?_⟩
  have inside := inserted.inside
  rw [strayed] at inside
  cases inside

section Reply

variable [DecidableEq Msg] {newmsg : Msg} {client : Client Msg} {turn : Turn Msg} {i : Nat}

/-- The features when the core has marked the message whose call back it makes. -/
def marked (features : Msg → Features) (msg : Msg) : Msg → Features :=
  Function.update features msg (features msg ||| I2C_MSG_DONE_FLAG)

/-- The message of the call back is at the index, and the others are the messages that stay. -/
def Replied (v : MsgVector Msg) (keep : Msg → Bool) (xs : List Msg) (newmsg : Msg) (index : Nat) : Prop :=
  ∃ ys, Holds v ys ∧ ys[index]? = some newmsg ∧ ys.eraseIdx index = xs.filter keep

/-- What a call back has left, when the message that it adds is in the vector. -/
structure Added (s t : Core Msg) (flags : Msg → Features) (xs : List Msg) (msg newmsg : Msg) (index : Nat) : Prop where
  holds : Holds t.vector (xs.insertIdx index newmsg)
  live : t.live = Function.update s.live newmsg true
  others : ∀ m, m ≠ newmsg → t.features m = marked flags msg m
  fresh : isDone (t.features newmsg) = false

theorem callBack_added (garbage : Features) (served : ∀ n, turn.insert n = true → n ≤ memory)
    (holds : Holds s.vector xs) (live : ∀ m ∈ xs, s.live m = true) (there : xs[i]? = some msg)
    (block : turn.malloc = some newmsg) (unused : s.live newmsg = false)
    (compliant : i2cCheckMsg turn.features (client.busFeatures &&& (I2C_MASTER_SUPPORT ||| I2C_SLAVE_SUPPORT)) = true)
    (room : (i2cVectorShiftRight turn.insert {s.vector with refused := false} (i + 1) 1).1.refused = false) :
    ∃ t, callBack garbage client turn s (.message msg) i = (t,some (i + 1,0)) ∧
      Added s t s.features xs msg newmsg (i + 1) := by
  obtain ⟨inside,own⟩ := List.getElem?_eq_some_iff.mp there
  have member : msg ∈ xs := own ▸ List.getElem_mem inside
  have other : msg ≠ newmsg := by
    rintro rfl
    cases unused.symm.trans (live msg member)
  have small : xs.length < 2^15 := by
    obtain ⟨f,cells,_⟩ := holds.cells
    exact Nat.lt_of_le_of_lt holds.within (sound_limit cells)
  have behind : size (i + 1) = i + 1 := Nat.mod_eq_of_lt (by omega)
  have given : malloc s turn.malloc = some newmsg := by simp [malloc,block,unused]
  unfold callBack
  rw [given]
  dsimp only
  rw [if_pos compliant,behind]
  set u := (setDone garbage (((s.give newmsg turn.features).use (.message newmsg)).use (.message msg)) (.message msg)).setFeatures
    (.message newmsg) (turn.features &&& ~~~I2C_MSG_DONE_FLAG) with hu
  obtain ⟨w,result,inserted⟩ := insertAt_holds (s := u) newmsg served holds (by omega) (show i + 1 ≤ xs.length by omega) room
  rw [result]
  refine ⟨{u with vector := w},rfl,inserted,rfl,fun m away => ?_,?_⟩
  · by_cases same : m = msg
    · subst same
      simp [hu,setDone,Core.setFeatures,Core.use,Core.give,i2cMsgFeatures,marked,away]
    · simp [hu,setDone,Core.setFeatures,Core.use,Core.give,i2cMsgFeatures,marked,away,same]
  · have cleared : (turn.features &&& ~~~I2C_MSG_DONE_FLAG) &&& I2C_MSG_DONE_FLAG = 0 := by
      rw [BitVec.and_assoc]
      simp
    simp [hu,Core.setFeatures,isDone,cleared]

theorem added_stays {t : Core Msg} {flags : Msg → Features} (added : Added s t flags xs msg newmsg (i + 1)) (fresh : newmsg ∉ xs)
    (inside : i < xs.length) (master : Bool)
    (done : ∀ j m, xs[j]? = some m → isMaster (flags m) = master → isDone (flags m) = true → j ≤ i)
    (there : xs[i]? = some msg) (distinct : xs.Nodup) :
    (xs.insertIdx (i + 1) newmsg).filter (stays t.features master) =
      (xs.take (i + 1)).filter (stays (marked flags msg) master) ++ newmsg::(xs.drop (i + 1)).filter (stays (marked flags msg) master) ∧
    (xs.drop (i + 1)).filter (stays (marked flags msg) master) = xs.drop (i + 1) := by
  have same : ∀ m ∈ xs, stays t.features master m = stays (marked flags msg) master m := by
    intro m member
    have away : m ≠ newmsg := fun equal => fresh (equal ▸ member)
    simp only [stays,added.others m away]
  have kept : stays t.features master newmsg = true := by simp [stays,added.fresh]
  have split : xs.insertIdx (i + 1) newmsg = xs.take (i + 1) ++ newmsg::xs.drop (i + 1) := by
    have middle := Lib.Cells.insertIdx_middle (xs.take (i + 1)) (xs.drop (i + 1)) newmsg
    rwa [List.take_append_drop,List.length_take_of_le inside] at middle
  refine ⟨?_,?_⟩
  · rw [split,List.filter_append,List.filter_cons_of_pos kept]
    rw [List.filter_congr fun m member => same m (List.mem_of_mem_take member)]
    rw [List.filter_congr fun m member => same m (List.mem_of_mem_drop member)]
  · apply List.filter_eq_self.mpr
    intro m member
    obtain ⟨k,later⟩ := List.mem_iff_getElem?.mp member
    rw [List.getElem?_drop] at later
    have away : m ≠ msg := by
      rintro rfl
      obtain ⟨bound,own⟩ := List.getElem?_eq_some_iff.mp later
      obtain ⟨_,asked⟩ := List.getElem?_eq_some_iff.mp there
      have equal := (distinct.getElem_inj_iff).mp (own.trans asked.symm)
      omega
    rw [← Bool.not_eq_false]
    intro gone
    obtain ⟨kind,ended⟩ := stays_false.mp gone
    rw [marked,Function.update_of_ne away] at kind ended
    have early := done _ m later kind ended
    omega

theorem Added.stored {t : Core Msg} {flags : Msg → Features} {index : Nat} (added : Added s t flags xs msg newmsg index)
    (place : index ≤ xs.length) (distinct : xs.Nodup) (live : ∀ m ∈ xs, s.live m = true) (fresh : newmsg ∉ xs) :
    Stored t (xs.insertIdx index newmsg) := by
  refine ⟨added.holds,?_,fun m old => ?_⟩
  · exact (List.perm_insertIdx newmsg xs place).nodup_iff.mpr (List.nodup_cons.mpr ⟨fresh,distinct⟩)
  · rw [added.live]
    obtain rfl | old := List.eq_or_mem_of_mem_insertIdx old
    · exact Function.update_self ..
    · have away : m ≠ newmsg := fun equal => fresh (equal ▸ old)
      exact (Function.update_of_ne away ..).trans (live m old)

/-- Of `n + 1` messages, `kept` are left before the index and all from there on. -/
theorem index_updated {n kept : Nat} (small : n < 2^15) (inside : i < n) (few : kept ≤ i + 1) :
    size (i + 1 + 65536 - size (n + 1 + 65536 - (kept + (n - (i + 1) + 1)))) = kept := by
  unfold size
  omega

/-- The update behind a call back leaves the index on the message that was added, and all
messages of the other kind and those that are not done in their order. -/
theorem reply_index (garbage : Features) (client : Client Msg) (turn : Turn Msg) (s : Core Msg) (xs : List Msg) (i : Nat)
    (msg newmsg : Msg) (rc : Int) (served : ∀ n, turn.insert n = true → n ≤ memory)
    (holds : Holds s.vector xs) (distinct : xs.Nodup) (live : ∀ m ∈ xs, s.live m = true) (there : xs[i]? = some msg)
    (asks : turn.flags msg &&& I2C_MSG_CALL_BACK_MASK ≠ 0)
    (done : ∀ j m, xs[j]? = some m → isMaster (turn.flags m) = client.master → isDone (turn.flags m) = true → j ≤ i)
    (block : turn.malloc = some newmsg) (unused : s.live newmsg = false)
    (compliant : i2cCheckMsg turn.features (client.busFeatures &&& (I2C_MASTER_SUPPORT ||| I2C_SLAVE_SUPPORT)) = true)
    (room : (i2cVectorShiftRight turn.insert {s.vector with refused := false} (i + 1) 1).1.refused = false) :
    ∃ t u index, turnCall garbage client turn s i rc = (t,some (i + 1,0)) ∧
      turnUpdate garbage client turn t (i + 1) = (u,index) ∧
      Replied u.vector (stays (marked turn.flags msg) client.master) xs newmsg index := by
  obtain ⟨inside,own⟩ := List.getElem?_eq_some_iff.mp there
  have member : msg ∈ xs := own ▸ List.getElem_mem inside
  have fresh : newmsg ∉ xs := fun old => absurd (unused.symm.trans (live newmsg old)) (by decide)
  let r : Core Msg := ({s with features := turn.flags} : Core Msg).use (.message msg)
  obtain ⟨t,called,added⟩ : ∃ t, callBack garbage client turn r (.message msg) i = (t,some (i + 1,0)) ∧
      Added r t turn.flags xs msg newmsg (i + 1) :=
    callBack_added garbage served holds live there block unused compliant room
  have turned : turnCall garbage client turn s i rc = (t,some (i + 1,0)) := by
    unfold turnCall
    rw [get_holds (s := ({s with features := turn.flags} : Core Msg)) holds,there]
    dsimp only [Pointer.of,i2cMsgFeatures]
    rw [if_pos asks]
    exact called
  have stored : Stored t (xs.insertIdx (i + 1) newmsg) := added.stored inside distinct live fresh
  obtain ⟨_,left⟩ := cleanup_freed garbage turn.reshape client.master stored
  obtain ⟨split,rest⟩ := added_stays added fresh inside client.master done there distinct
  rw [split,rest] at left
  set keep := stays (marked turn.flags msg) client.master
  set u := i2cCleanupAdapterMsgs garbage turn.reshape client.master t
  have few : ((xs.take (i + 1)).filter keep).length ≤ i + 1 :=
    (List.length_filter_le ..).trans (List.length_take_le ..)
  have place : size (i + 1 + 65536 - size (t.vector.length + 65536 - u.vector.length)) =
      ((xs.take (i + 1)).filter keep).length := by
    have small : xs.length < 2^15 := by
      obtain ⟨f,cells,_⟩ := holds.cells
      exact Nat.lt_of_le_of_lt holds.within (sound_limit cells)
    have longer := stored.holds.length
    have shorter := left.length
    rw [List.length_insertIdx_of_le_length inside] at longer
    rw [List.length_append,List.length_cons,List.length_drop] at shorter
    rw [longer,shorter]
    exact index_updated small inside few
  refine ⟨t,u,_,turned,rfl,_,left,?_,?_⟩
  · rw [place]
    simp
  · rw [place,List.eraseIdx_append_of_length_le (Nat.le_refl _),Nat.sub_self,List.eraseIdx_cons_zero]
    rw [← rest,← List.filter_append,List.take_append_drop]

end Reply

/-- The master's message 2 asks for a call back, which adds the message 5. -/
def answered : Turn Nat where
  flags msg := if msg = 1 then I2C_MSG_MASTER_MSG_MASK ||| I2C_MSG_DONE_FLAG
    else if msg = 2 then I2C_MSG_MASTER_MSG_MASK ||| I2C_MSG_CALL_BACK_MASK else I2C_MSG_DONE_FLAG
  malloc := some 5
  features := I2C_MSG_MASTER_MSG_MASK
  insert := roomy
  fix := roomy
  again := roomy
  reshape := roomy
  resumed := 0
  index := 0

theorem reply_index_second : ∃ t u index,
    turnCall 0 (flushes true 1) answered (storing [1,2,7]) 1 0 = (t,some (2,0)) ∧
      turnUpdate 0 (flushes true 1) answered t 2 = (u,index) ∧
      Replied u.vector (stays (marked answered.flags 2) true) [1,2,7] 5 index := by
  apply reply_index 0 (flushes true 1) answered (storing [1,2,7]) [1,2,7] 1 2 5 0 roomy_served (vectorOf_holds _ (by decide))
    (by decide) (by decide) rfl (by decide) ?_ rfl (by decide) (by decide) (by decide)
  intro j m there kind done
  obtain ⟨inside,rfl⟩ := List.getElem?_eq_some_iff.mp there
  match j,inside with
  | 0,_ => decide
  | 1,_ => decide
  | 2,_ => exact absurd (show isMaster (answered.flags 7) = true from kind) (by decide)

end BermudaOS.Dev.I2cCore
