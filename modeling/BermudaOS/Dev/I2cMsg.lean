import Mathlib.Algebra.Group.Nat.Defs
import BermudaOS.Lib.Cells

/-! The message vectors of I2C adapters, `dev/i2c/i2c-msg.c`. Sizes are 16-bit. A vector
records whether the heap has refused it memory, and whether an index was used that is not
below its limit. -/
namespace BermudaOS.Dev.I2cMsg
open Lib.Cells

structure MsgVector (Msg : Type) where
  length : Nat
  limit : Nat
  data : Option (Nat → Option Msg)
  /-- The entries in the block of `data`. -/
  allocated : Nat
  refused : Bool
  strayed : Bool

/-- `size_t`. -/
def size (n : Nat) : Nat := n % 2^16

def defaultMsgLimit : Nat := 10

def entrySize : Nat := 2

def devOk : Int := 0

def devNull : Int := 2

def devNoinit : Int := 3

def devOutofbounds : Int := 5

/-- What a function returns that returns a message. -/
inductive Pointer (Msg : Type) where
  | null
  | message (msg : Msg)
  | ptrError (code : Int)
  deriving DecidableEq

def Pointer.of {Msg : Type} : Option Msg → Pointer Msg
  | none => .null
  | some msg => .message msg

variable {Msg : Type}

namespace MsgVector

/-- An access to `data[i]`. -/
def touch (v : MsgVector Msg) (i : Nat) : MsgVector Msg :=
  {v with strayed := v.strayed || v.data.isNone || decide (v.limit ≤ i)}

def entry (v : MsgVector Msg) (i : Nat) : Option Msg := v.data.bind (· i)

/-- `data[i] = p`. -/
def write (v : MsgVector Msg) (i : Nat) (p : Option Msg) : MsgVector Msg :=
  {v.touch i with data := v.data.map fun f => Function.update f i p}

/-- A block of `bytes` bytes for `data`, with the entries that were there, or `NULL`. The
heap has such a block when `heap` says so. -/
def realloc (heap : Nat → Bool) (v : MsgVector Msg) (bytes : Nat) : MsgVector Msg × Bool :=
  if heap bytes then ({v with allocated := bytes / entrySize},true) else ({v with refused := true},false)

end MsgVector

def i2cCreateMsgVector (heap : Nat → Bool) (v : MsgVector Msg) (block : Nat → Option Msg) : MsgVector Msg × Int :=
  let bytes := size (entrySize * defaultMsgLimit)
  if heap bytes then
    ({v with data := some block,allocated := bytes / entrySize,limit := defaultMsgLimit,length := 0},-devOk)
  else ({v with data := none,refused := true},-devNull)

/-- The loop of `i2c_vector_shift_left`, for the `n` entries from `index` on. -/
def shiftLeftWalk : Nat → Nat → MsgVector Msg → MsgVector Msg
  | 0,_,v => v
  | n+1,index,v => shiftLeftWalk n (index + 1) ((v.touch index).write (index - 1) (v.entry index))

def i2cVectorShiftLeft (v : MsgVector Msg) (index : Nat) : MsgVector Msg × Bool :=
  if v.length ≤ index then (v,true)
  else
    let (v,index) := if index = 0 then ((v.touch 1).write 0 (v.entry 1),1) else (v,index)
    let v := shiftLeftWalk (v.length - index) index v
    ({v with length := v.length - 1},false)

/-- The loop of `i2c_vector_shift_right`, from the entry `last` down to `index`. -/
def shiftRightWalk (index num : Nat) : Nat → MsgVector Msg → MsgVector Msg
  | 0,v => if index = 0 then (v.touch 0).write (size num) (v.entry 0) else v
  | last+1,v =>
    if index ≤ last + 1 then
      shiftRightWalk index num last ((v.touch (last + 1)).write (size (last + 1 + num)) (v.entry (last + 1)))
    else v

def i2cVectorShiftRight (heap : Nat → Bool) (v : MsgVector Msg) (index num : Nat) : MsgVector Msg × Int :=
  let (v,grown) :=
    if v.limit ≤ size (v.length + num) then
      let (v,block) := v.realloc heap (size (size (v.limit + num) * entrySize))
      if block then ({v with limit := size (v.limit + num)},true) else ({v with data := none},false)
    else (v,true)
  if grown then
    let v := shiftRightWalk index num (size (v.length + 65535)) v
    ({v with length := size (v.length + num)},-devOk)
  else (v,-devNull)

/-- `index + 1` is the place behind the deleted entry. -/
def deleteEntry (v : MsgVector Msg) (index : Nat) : MsgVector Msg :=
  let (v,last) := i2cVectorShiftLeft (v.write index none) (size (index + 1))
  if last then {v with length := v.length - 1} else v

def i2cVectorDeleteAt (v : MsgVector Msg) (index : Nat) : MsgVector Msg × Pointer Msg :=
  match v.data with
  | none => (v,.ptrError (-devNoinit))
  | some _ =>
    if index < v.length then (deleteEntry (v.touch index) index,.of (v.entry index)) else (v,.null)

def i2cVectorGet (v : MsgVector Msg) (index : Nat) : MsgVector Msg × Pointer Msg :=
  match v.data with
  | none => (v,.ptrError (-devNoinit))
  | some _ => if index < v.length then (v.touch index,.of (v.entry index)) else (v,.null)

/-- The loop of `i2c_vector_delete_msg`, for the `n` entries from `i` on. -/
def deleteMsgWalk [DecidableEq Msg] (msg : Msg) : Nat → Nat → MsgVector Msg → MsgVector Msg × Pointer Msg
  | 0,_,v => (v,.null)
  | n+1,i,v =>
    if v.entry i = some msg then (deleteEntry (v.touch i) i,.message msg) else deleteMsgWalk msg n (i + 1) (v.touch i)

def i2cVectorDeleteMsg [DecidableEq Msg] (v : MsgVector Msg) (msg : Msg) : MsgVector Msg × Pointer Msg :=
  match v.data with
  | none => (v,.ptrError (-devNoinit))
  | some _ => deleteMsgWalk msg v.length 0 v

/-- `i2c_msg_is_master` of an entry: `NULL` has no features. -/
def entryIsMaster (i2cMsgIsMaster : Msg → Bool) (p : Option Msg) : Bool := p.elim false i2cMsgIsMaster

/-- The loop of `i2c_vector_add` for a master message, from the entry `i` on. -/
def addMasterWalk (i2cMsgIsMaster : Msg → Bool) (heap : Nat → Bool) (msg : Msg) : Nat → Nat → MsgVector Msg → MsgVector Msg
  | 0,_,v => v
  | n+1,i,v =>
    if i = v.length then
      let v := v.write i (some msg)
      {v with length := size (v.length + 1)}
    else
      let tmp := v.entry i
      let v := v.touch i
      if entryIsMaster i2cMsgIsMaster tmp then addMasterWalk i2cMsgIsMaster heap msg n (i + 1) v
      else (i2cVectorShiftRight heap v i 1).1.write i (some msg)

/-- `i2c_vector_add` behind its checks. -/
def addEntry (i2cMsgIsMaster : Msg → Bool) (heap : Nat → Bool) (v : MsgVector Msg) (msg : Msg) (master : Bool) :
    MsgVector Msg :=
  if v.length = 0 then
    let v := v.write 0 (some msg)
    {v with length := size (v.length + 1)}
  else if master then addMasterWalk i2cMsgIsMaster heap msg (v.length + 1) 0 v
  else
    let v := v.write v.length (some msg)
    {v with length := size (v.length + 1)}

def i2cVectorAdd (i2cMsgIsMaster : Msg → Bool) (heap : Nat → Bool) (v : MsgVector Msg) (msg : Msg) (master : Bool) :
    MsgVector Msg × Int :=
  match v.data with
  | none => (v,-devNoinit)
  | some _ =>
    if v.limit < v.length then (v,-devOutofbounds)
    else if v.length = v.limit then
      let (v,buff) := v.realloc heap (size (size (v.limit + defaultMsgLimit) * entrySize))
      if buff then (addEntry i2cMsgIsMaster heap {v with limit := size (v.limit + defaultMsgLimit)} msg master,0)
      else (v,-devNull)
    else (addEntry i2cMsgIsMaster heap v msg master,0)

/-- The bytes that a block can have: the first addresses are those of registers. -/
def memory : Nat := 2^16 - 2^8

/-- The vector has a block for its entries, these are the cells, and no access has strayed. -/
structure Sound (v : MsgVector Msg) (f : Nat → Option Msg) : Prop where
  data : v.data = some f
  covered : v.limit ≤ v.allocated
  bounded : v.allocated * entrySize ≤ memory
  kept : v.strayed = false

/-- The vector holds these messages. -/
structure Holds (v : MsgVector Msg) (xs : List Msg) : Prop where
  cells : ∃ f, Sound v f ∧ Filled f xs
  length : v.length = xs.length
  within : xs.length ≤ v.limit

variable {v : MsgVector Msg} {f : Nat → Option Msg} {xs ms ss : List Msg} {msg : Msg} {i n index : Nat}
  {heap : Nat → Bool} {i2cMsgIsMaster : Msg → Bool}

theorem sound_limit (sound : Sound v f) : v.limit < 2^15 := by
  have covered := sound.covered
  have bounded := sound.bounded
  unfold memory entrySize at bounded
  omega

theorem touch_inside (sound : Sound v f) (inside : i < v.limit) : v.touch i = v := by
  have strayed : (v.strayed || v.data.isNone || decide (v.limit ≤ i)) = v.strayed := by
    simp [sound.data,sound.kept,inside]
  rw [MsgVector.touch,strayed]

theorem write_inside {p : Option Msg} (sound : Sound v f) (inside : i < v.limit) :
    v.write i p = {v with data := some (Function.update f i p)} := by
  rw [MsgVector.write,touch_inside sound inside,sound.data]
  rfl

theorem write_sound {p : Option Msg} (sound : Sound v f) (inside : i < v.limit) :
    Sound (v.write i p) (Function.update f i p) := by
  rw [write_inside sound inside]
  exact ⟨rfl,sound.covered,sound.bounded,sound.kept⟩

@[simp] theorem write_length (p : Option Msg) : (v.write i p).length = v.length := rfl

@[simp] theorem write_limit (p : Option Msg) : (v.write i p).limit = v.limit := rfl

theorem entry_sound (sound : Sound v f) : v.entry i = f i := by
  rw [MsgVector.entry,sound.data]
  rfl

theorem shiftLeftWalk_cells (index n : Nat) (sound : Sound v f) (inside : index + 1 + n ≤ v.limit) :
    ∃ g, Sound (shiftLeftWalk n (index + 1) v) g ∧ (shiftLeftWalk n (index + 1) v).length = v.length ∧
      (shiftLeftWalk n (index + 1) v).limit = v.limit ∧ (∀ j, j < index → g j = f j) ∧
      ∀ j, index ≤ j → j < index + n → g j = f (j + 1) := by
  induction n generalizing v f index with
  | zero => exact ⟨f,sound,rfl,rfl,fun _ _ => rfl,fun j low high => by omega⟩
  | succ n ih =>
    have read : v.entry (index + 1) = f (index + 1) := entry_sound sound
    rw [shiftLeftWalk,touch_inside sound (by omega),Nat.add_sub_cancel,read]
    obtain ⟨g,kept,length,limit,left,right⟩ := ih (index + 1)
      (write_sound (p := f (index + 1)) sound (show index < v.limit by omega)) (by rw [write_limit]; omega)
    refine ⟨g,kept,length,limit,?_,?_⟩
    · intro j before
      rw [left j (by omega),Function.update_of_ne (by omega)]
    · intro j low high
      by_cases first : j = index
      · rw [left j (by omega),first,Function.update_self]
      · rw [right j (by omega) (by omega),Function.update_of_ne (by omega)]

theorem shiftRightWalk_cells (index last : Nat) (sound : Sound v f) (inside : last + 1 < v.limit) :
    ∃ g, Sound (shiftRightWalk index 1 last v) g ∧ (shiftRightWalk index 1 last v).length = v.length ∧
      (shiftRightWalk index 1 last v).limit = v.limit ∧ (∀ j, j < index ∨ last + 1 < j → g j = f j) ∧
      ∀ j, index ≤ j → j ≤ last → g (j + 1) = f j := by
  have small := sound_limit sound
  induction last generalizing v f with
  | zero =>
    rw [shiftRightWalk]
    split
    · rename_i first
      have one : size 1 = 1 := rfl
      rw [touch_inside sound (by omega),one,entry_sound sound]
      refine ⟨_,write_sound sound (by omega),rfl,rfl,?_,?_⟩
      · intro j outside
        exact Function.update_of_ne (by omega) ..
      · intro j low high
        obtain rfl : j = 0 := by omega
        exact Function.update_self ..
    · exact ⟨f,sound,rfl,rfl,fun _ _ => rfl,fun j low high => by omega⟩
  | succ last ih =>
    rw [shiftRightWalk]
    split
    · have word : size (last + 1 + 1) = last + 2 := Nat.mod_eq_of_lt (by omega)
      rw [touch_inside sound (by omega),word,entry_sound sound]
      obtain ⟨g,kept,length,limit,outside,moved⟩ := ih
        (write_sound (p := f (last + 1)) sound (show last + 2 < v.limit by omega))
        (by rw [write_limit]; omega) (by rw [write_limit]; omega)
      refine ⟨g,kept,length,limit,?_,?_⟩
      · intro j apart
        rw [outside j (by omega),Function.update_of_ne (by omega)]
      · intro j low high
        by_cases own : j = last + 1
        · rw [own,outside (last + 1 + 1) (by omega),Function.update_self]
        · rw [moved j low (by omega),Function.update_of_ne (by omega)]
    · exact ⟨f,sound,rfl,rfl,fun _ _ => rfl,fun j low high => by omega⟩

theorem shiftLeft_last (last : v.length ≤ index) : i2cVectorShiftLeft v index = (v,true) := if_pos last

theorem shiftLeft_inner (inner : index + 1 < v.length) : i2cVectorShiftLeft v (index + 1) =
    ({shiftLeftWalk (v.length - (index + 1)) (index + 1) v with
      length := (shiftLeftWalk (v.length - (index + 1)) (index + 1) v).length - 1},false) := by
  rw [i2cVectorShiftLeft,if_neg (by omega)]
  rfl

theorem deleteEntry_holds (holds : Holds v xs) (inside : index < xs.length) :
    Holds (deleteEntry v index) (xs.eraseIdx index) := by
  obtain ⟨⟨f,sound,filled⟩,length,within⟩ := holds
  have small := sound_limit sound
  have behind : size (index + 1) = index + 1 := Nat.mod_eq_of_lt (by omega)
  have cleared := write_sound (p := none) sound (show index < v.limit by omega)
  have shorter := List.length_eraseIdx_of_lt inside
  have kept : ∀ j, j ≠ index → Function.update f index none j = f j := fun j other => Function.update_of_ne other ..
  rw [deleteEntry,behind]
  by_cases last : v.length ≤ index + 1
  · rw [shiftLeft_last (by rwa [write_length])]
    refine ⟨⟨_,⟨cleared.data,cleared.covered,cleared.bounded,cleared.kept⟩,?_⟩,?_,?_⟩
    · apply filled_erase filled _ _ inside
      · exact fun j before _ => kept j (by omega)
      · exact fun j low high => by omega
    · simp [length,shorter]
    · simp only [if_true,write_limit,shorter]
      omega
  · rw [shiftLeft_inner (by rw [write_length]; omega)]
    obtain ⟨g,moved,same,limit,left,right⟩ := shiftLeftWalk_cells index (v.length - (index + 1)) cleared
      (by rw [write_limit]; omega)
    refine ⟨⟨g,⟨moved.data,moved.covered,moved.bounded,moved.kept⟩,?_⟩,?_,?_⟩
    · apply filled_erase filled _ _ inside
      · exact fun j before _ => (left j before).trans (kept j (by omega))
      · exact fun j low high => (right j low (by omega)).trans (kept (j + 1) (by omega))
    · exact (congrArg (· - 1) (same.trans length)).trans shorter.symm
    · simp only [Bool.false_eq_true,if_false,write_length,limit,write_limit,shorter]
      omega

theorem deleteAt_holds (holds : Holds v xs) (index : Nat) :
    Holds (i2cVectorDeleteAt v index).1 (xs.eraseIdx index) ∧ (i2cVectorDeleteAt v index).2 = .of xs[index]? := by
  obtain ⟨⟨f,sound,filled⟩,length,within⟩ := holds
  have data := sound.data
  simp only [i2cVectorDeleteAt,data,length]
  split
  · rename_i inside
    rw [touch_inside sound (by omega),entry_sound sound,filled index inside]
    exact ⟨deleteEntry_holds ⟨⟨f,sound,filled⟩,length,within⟩ inside,rfl⟩
  · rename_i outside
    rw [List.eraseIdx_of_length_le (by omega),List.getElem?_eq_none (by omega)]
    exact ⟨⟨⟨f,sound,filled⟩,length,within⟩,rfl⟩

theorem deleteMsgWalk_holds [DecidableEq Msg] (holds : Holds v xs) (before : msg ∉ xs.take i) (rest : i + n = xs.length) :
    Holds (deleteMsgWalk msg n i v).1 (xs.erase msg) ∧
      (deleteMsgWalk msg n i v).2 = if msg ∈ xs then .message msg else .null := by
  obtain ⟨⟨f,sound,filled⟩,length,within⟩ := holds
  induction n generalizing i with
  | zero =>
    rw [List.take_of_length_le (by omega)] at before
    rw [deleteMsgWalk,List.erase_of_not_mem before,if_neg before]
    exact ⟨⟨⟨f,sound,filled⟩,length,within⟩,rfl⟩
  | succ n ih =>
    have inside : i < xs.length := by omega
    have split : xs = xs.take i ++ xs[i]::xs.drop (i + 1) := by simp
    rw [deleteMsgWalk,touch_inside sound (by omega),entry_sound sound,filled_get filled inside]
    by_cases found : xs[i] = msg
    · rw [found] at split
      have erased : xs.erase msg = xs.eraseIdx i := by
        rw [List.eraseIdx_eq_take_drop_succ]
        nth_rewrite 1 [split]
        rw [List.erase_append_right _ before,List.erase_cons_head]
      rw [if_pos (congrArg some found),erased,if_pos (found ▸ List.getElem_mem inside)]
      exact ⟨deleteEntry_holds ⟨⟨f,sound,filled⟩,length,within⟩ inside,rfl⟩
    · rw [if_neg (fun equal => found (Option.some.inj equal))]
      apply ih _ (by omega)
      intro member
      rw [List.take_succ_eq_append_getElem inside] at member
      obtain front | own := List.mem_append.mp member
      · exact before front
      · exact found (List.mem_singleton.mp own).symm

theorem deleteMsg_holds [DecidableEq Msg] (holds : Holds v xs) (msg : Msg) :
    Holds (i2cVectorDeleteMsg v msg).1 (xs.erase msg) ∧
      (i2cVectorDeleteMsg v msg).2 = if msg ∈ xs then .message msg else .null := by
  obtain ⟨f,sound,_⟩ := holds.cells
  have data := sound.data
  simp only [i2cVectorDeleteMsg,data]
  exact deleteMsgWalk_holds holds (by simp) (by rw [holds.length]; omega)

/-- The vector behind a request that the heap has met: there is room for `extra` more entries. -/
theorem realloc_sound {extra : Nat} (served : ∀ n, heap n = true → n ≤ memory) (sound : Sound v f)
    (few : extra ≤ defaultMsgLimit) (given : heap (size (size (v.limit + extra) * entrySize)) = true) :
    size (v.limit + extra) = v.limit + extra ∧
      Sound {v with allocated := size (size (v.limit + extra) * entrySize) / entrySize,limit := v.limit + extra} f := by
  have covered := sound.covered
  have bounded := sound.bounded
  have enough := served _ given
  unfold size memory entrySize defaultMsgLimit at *
  have word : (v.limit + extra) % 2^16 = v.limit + extra := Nat.mod_eq_of_lt (by omega)
  rw [word] at enough ⊢
  have bytes : (v.limit + extra) * 2 % 2^16 = (v.limit + extra) * 2 := Nat.mod_eq_of_lt (by omega)
  rw [bytes] at enough
  refine ⟨rfl,sound.data,?_,?_,sound.kept⟩
  · simp only [bytes]
    omega
  · simp only [entrySize,bytes,memory]
    omega

/-- The vector with one entry more, its entries from `index` on moved down. -/
structure Shifted (w : MsgVector Msg) (xs : List Msg) (index : Nat) : Prop where
  cells : ∃ f g, Sound w g ∧ Filled f xs ∧ (∀ j, j < index → g j = f j) ∧
    ∀ j, index ≤ j → j < xs.length → g (j + 1) = f j
  length : w.length = xs.length + 1
  within : xs.length < w.limit

theorem shiftRightWalk_shifted (index : Nat) (sound : Sound v f) (filled : Filled f xs) (length : v.length = xs.length)
    (room : xs.length < v.limit) (nonempty : 0 < xs.length) :
    Shifted {shiftRightWalk index 1 (size (v.length + 65535)) v with
      length := size ((shiftRightWalk index 1 (size (v.length + 65535)) v).length + 1)} xs index := by
  have small := sound_limit sound
  have last : size (v.length + 65535) = xs.length - 1 := by
    unfold size
    omega
  have more : size (v.length + 1) = xs.length + 1 := by
    unfold size
    omega
  rw [last]
  obtain ⟨g,moved,same,limit,outside,shifted⟩ := shiftRightWalk_cells index (xs.length - 1) sound (by omega)
  refine ⟨⟨f,g,⟨moved.data,moved.covered,moved.bounded,moved.kept⟩,filled,?_,?_⟩,?_,?_⟩
  · exact fun j before => outside j (.inl before)
  · exact fun j low high => shifted j low (by omega)
  · exact (congrArg (fun n => size (n + 1)) same).trans more
  · exact limit ▸ room

/-- `length += num`. -/
def lengthen (num : Nat) (v : MsgVector Msg) : MsgVector Msg := {v with length := size (v.length + num)}

theorem lengthen_strayed (num : Nat) (v : MsgVector Msg) : (lengthen num v).strayed = v.strayed := rfl

theorem lengthen_refused (num : Nat) (v : MsgVector Msg) : (lengthen num v).refused = v.refused := rfl

/-- What a right shift makes of a vector that has the room for it. -/
def shiftedRight (index num : Nat) (v : MsgVector Msg) : MsgVector Msg :=
  lengthen num (shiftRightWalk index num (size (v.length + 65535)) v)

theorem shiftRight_kept {num : Nat} (room : ¬ v.limit ≤ size (v.length + num)) :
    i2cVectorShiftRight heap v index num = (shiftedRight index num v,-devOk) := by
  simp only [i2cVectorShiftRight,if_neg room,if_true]
  rfl

theorem shiftRight_grown {num : Nat} (full : v.limit ≤ size (v.length + num))
    (block : heap (size (size (v.limit + num) * entrySize)) = true) :
    i2cVectorShiftRight heap v index num = (shiftedRight index num {v with
      allocated := size (size (v.limit + num) * entrySize) / entrySize,limit := size (v.limit + num)},-devOk) := by
  simp only [i2cVectorShiftRight,if_pos full,MsgVector.realloc,block,if_true]
  rfl

theorem shiftRight_shifted (served : ∀ n, heap n = true → n ≤ memory) (holds : Holds v xs) (nonempty : 0 < xs.length)
    (given : (i2cVectorShiftRight heap v index 1).1.refused = false) :
    (i2cVectorShiftRight heap v index 1).2 = -devOk ∧ Shifted (i2cVectorShiftRight heap v index 1).1 xs index := by
  obtain ⟨⟨f,sound,filled⟩,length,within⟩ := holds
  have small := sound_limit sound
  have more : size (v.length + 1) = xs.length + 1 := by
    unfold size
    omega
  by_cases full : v.limit ≤ size (v.length + 1)
  · cases block : heap (size (size (v.limit + 1) * entrySize)) with
    | false => simp [i2cVectorShiftRight,full,MsgVector.realloc,block] at given
    | true =>
      obtain ⟨word,grown⟩ := realloc_sound served sound (by decide) block
      rw [shiftRight_grown full block]
      rw [word] at grown ⊢
      exact ⟨rfl,shiftRightWalk_shifted index grown filled length (Nat.lt_succ_of_le within) nonempty⟩
  · rw [shiftRight_kept full]
    exact ⟨rfl,shiftRightWalk_shifted index sound filled length (by omega) nonempty⟩

theorem shifted_holds (msg : Msg) {w : MsgVector Msg} (shifted : Shifted w xs index) (place : index ≤ xs.length) :
    Holds (w.write index (some msg)) (xs.insertIdx index msg) := by
  obtain ⟨⟨f,g,sound,filled,left,right⟩,length,within⟩ := shifted
  have longer := List.length_insertIdx_of_le_length place msg
  refine ⟨⟨_,write_sound sound (by omega),?_⟩,?_,?_⟩
  · apply filled_insert filled place (Function.update_self ..)
    · exact fun j before => (Function.update_of_ne (by omega) ..).trans (left j before)
    · exact fun j low high => (Function.update_of_ne (by omega) ..).trans (right j low high)
  · rw [write_length,length,longer]
  · rw [write_limit,longer]
    omega

theorem append_holds (msg : Msg) (holds : Holds v xs) (room : xs.length < v.limit) :
    Holds {v.write v.length (some msg) with length := size (v.length + 1)} (xs ++ [msg]) := by
  obtain ⟨⟨f,sound,filled⟩,length,within⟩ := holds
  have small := sound_limit sound
  have written := write_sound (p := some msg) sound (i := v.length) (by omega)
  refine ⟨⟨_,⟨written.data,written.covered,written.bounded,written.kept⟩,?_⟩,?_,?_⟩
  · apply filled_append filled
    · rw [length]
      exact Function.update_self ..
    · exact fun j before => Function.update_of_ne (by omega) ..
  · simp only [size,List.length_append,List.length_singleton]
    omega
  · simp only [write_limit,List.length_append,List.length_singleton]
    omega

theorem addMasterWalk_onward {m : Msg} (heap : Nat → Bool) (msg : Msg) (n : Nat) (sound : Sound v f) (inside : i < v.limit) (other : i ≠ v.length)
    (there : f i = some m) (master : i2cMsgIsMaster m = true) :
    addMasterWalk i2cMsgIsMaster heap msg (n + 1) i v = addMasterWalk i2cMsgIsMaster heap msg n (i + 1) v := by
  rw [addMasterWalk,if_neg other,touch_inside sound inside,entry_sound sound,there]
  simp only [entryIsMaster,Option.elim_some,master,if_true]

theorem addMasterWalk_stop {m : Msg} (heap : Nat → Bool) (msg : Msg) (n : Nat) (sound : Sound v f) (inside : i < v.limit) (other : i ≠ v.length)
    (there : f i = some m) (slave : i2cMsgIsMaster m = false) :
    addMasterWalk i2cMsgIsMaster heap msg (n + 1) i v = (i2cVectorShiftRight heap v i 1).1.write i (some msg) := by
  rw [addMasterWalk,if_neg other,touch_inside sound inside,entry_sound sound,there]
  simp only [entryIsMaster,Option.elim_some,slave,Bool.false_eq_true,if_false]

theorem addMasterWalk_holds (served : ∀ n, heap n = true → n ≤ memory) (holds : Holds v (ms ++ ss))
    (room : (ms ++ ss).length < v.limit) (masters : ∀ m ∈ ms, i2cMsgIsMaster m = true)
    (slaves : ∀ m ∈ ss, i2cMsgIsMaster m = false) (place : i ≤ ms.length) (rest : (ms ++ ss).length < i + n)
    (given : (addMasterWalk i2cMsgIsMaster heap msg n i v).refused = false) :
    Holds (addMasterWalk i2cMsgIsMaster heap msg n i v) (ms ++ msg::ss) := by
  obtain ⟨f,sound,filled⟩ := holds.cells
  have length := holds.length
  have bound : (ms ++ ss).length = ms.length + ss.length := List.length_append
  induction n generalizing i with
  | zero => omega
  | succ n ih =>
    by_cases last : i = v.length
    · obtain rfl : ss = [] := List.length_eq_zero_iff.mp (by omega)
      rw [addMasterWalk,if_pos last,last]
      simpa using append_holds msg holds room
    · have there := filled_get filled (show i < (ms ++ ss).length by omega)
      by_cases before : i < ms.length
      · rw [List.getElem_append_left before] at there
        have onward := addMasterWalk_onward heap msg n sound (by omega) last there
          (masters _ (List.getElem_mem before))
        rw [onward] at given ⊢
        exact ih before (by omega) given
      · rw [List.getElem_append_right (by omega)] at there
        have stop := addMasterWalk_stop heap msg n sound (by omega) last there
          (slaves _ (List.getElem_mem (by omega)))
        rw [stop] at given ⊢
        obtain rfl : i = ms.length := by omega
        obtain ⟨_,shifted⟩ := shiftRight_shifted served holds (by omega) given
        have placed := shifted_holds msg shifted (by omega)
        rwa [insertIdx_middle] at placed

theorem addEntry_holds {master : Bool} (served : ∀ n, heap n = true → n ≤ memory) (holds : Holds v (ms ++ ss))
    (room : (ms ++ ss).length < v.limit) (masters : ∀ m ∈ ms, i2cMsgIsMaster m = true)
    (slaves : ∀ m ∈ ss, i2cMsgIsMaster m = false)
    (given : (addEntry i2cMsgIsMaster heap v msg master).refused = false) :
    Holds (addEntry i2cMsgIsMaster heap v msg master) (if master then ms ++ msg::ss else ms ++ ss ++ [msg]) := by
  unfold addEntry at given ⊢
  have length := holds.length
  by_cases first : v.length = 0
  · obtain ⟨rfl,rfl⟩ := List.append_eq_nil_iff.mp (List.length_eq_zero_iff.mp (length.symm.trans first))
    have appended := append_holds msg holds room
    rw [if_pos first]
    rw [first] at appended
    cases master <;> simpa [first] using appended
  · rw [if_neg first] at given ⊢
    cases master with
    | false => exact append_holds msg holds room
    | true => exact addMasterWalk_holds served holds room masters slaves (Nat.zero_le _) (by omega) given

theorem add_holds {master : Bool} (served : ∀ n, heap n = true → n ≤ memory) (holds : Holds v (ms ++ ss))
    (masters : ∀ m ∈ ms, i2cMsgIsMaster m = true) (slaves : ∀ m ∈ ss, i2cMsgIsMaster m = false)
    (given : (i2cVectorAdd i2cMsgIsMaster heap v msg master).1.refused = false) :
    Holds (i2cVectorAdd i2cMsgIsMaster heap v msg master).1 (if master then ms ++ msg::ss else ms ++ ss ++ [msg]) ∧
      (i2cVectorAdd i2cMsgIsMaster heap v msg master).2 = 0 := by
  obtain ⟨⟨f,sound,filled⟩,length,within⟩ := holds
  have data := sound.data
  have ordered : ¬ v.limit < v.length := by omega
  by_cases full : v.length = v.limit
  · cases block : heap (size (size (v.limit + defaultMsgLimit) * entrySize)) with
    | false =>
      have refused : v.length = v.limit → (i2cVectorAdd i2cMsgIsMaster heap v msg master).1.refused = true := by
        intro full
        simp [i2cVectorAdd,data,full,MsgVector.realloc,block]
      rw [refused full] at given
      cases given
    | true =>
      obtain ⟨word,grown⟩ := realloc_sound served sound (Nat.le_refl _) block
      simp only [i2cVectorAdd,data,if_neg ordered,if_pos full,MsgVector.realloc,block,if_true] at given ⊢
      rw [data] at grown
      rw [word] at grown given ⊢
      refine ⟨addEntry_holds served ⟨⟨f,grown,filled⟩,length,?_⟩ ?_ masters slaves given,trivial⟩
      · simp only
        omega
      · simp only [defaultMsgLimit]
        omega
  · simp only [i2cVectorAdd,data,if_neg ordered,if_neg full] at given ⊢
    exact ⟨addEntry_holds served ⟨⟨f,sound,filled⟩,length,within⟩ (by omega) masters slaves given,trivial⟩

theorem create_holds {block : Nat → Option Msg} (calm : v.strayed = false) (given : (i2cCreateMsgVector heap v block).1.refused = false) :
    Holds (i2cCreateMsgVector heap v block).1 [] ∧ (i2cCreateMsgVector heap v block).2 = -devOk := by
  cases met : heap (size (entrySize * defaultMsgLimit)) with
  | false => simp [i2cCreateMsgVector,met] at given
  | true =>
    simp only [i2cCreateMsgVector,met,if_true]
    have small : size (entrySize * defaultMsgLimit) / entrySize * entrySize ≤ memory := by decide
    exact ⟨⟨⟨block,⟨rfl,Nat.le_refl _,small,calm⟩,filled_nil block⟩,rfl,Nat.zero_le _⟩,trivial⟩

inductive Call (Msg : Type) where
  | add (msg : Msg)
  | deleteAt (index : Nat)
  | deleteMsg (msg : Msg)

inductive Reply (Msg : Type) where
  | code (n : Int)
  | pointer (p : Pointer Msg)

section Sequence

variable [DecidableEq Msg] (i2cMsgIsMaster : Msg → Bool)

def Call.perform (heap : Nat → Bool) (v : MsgVector Msg) : Call Msg → MsgVector Msg × Reply Msg
  | .add msg =>
    let (v,rc) := i2cVectorAdd i2cMsgIsMaster heap v msg (i2cMsgIsMaster msg)
    (v,.code rc)
  | .deleteAt index =>
    let (v,p) := i2cVectorDeleteAt v index
    (v,.pointer p)
  | .deleteMsg msg =>
    let (v,p) := i2cVectorDeleteMsg v msg
    (v,.pointer p)

/-- The messages that were added and not deleted, in the order in which they were added. -/
structure Queues (Msg : Type) where
  masters : List Msg
  slaves : List Msg

def Queues.all (q : Queues Msg) : List Msg := q.masters ++ q.slaves

def Call.outcome (q : Queues Msg) : Call Msg → Queues Msg × Reply Msg
  | .add msg =>
    (if i2cMsgIsMaster msg then {q with masters := q.masters ++ [msg]} else {q with slaves := q.slaves ++ [msg]},.code 0)
  | .deleteAt index =>
    (if index < q.masters.length then {q with masters := q.masters.eraseIdx index}
      else {q with slaves := q.slaves.eraseIdx (index - q.masters.length)},.pointer (.of q.all[index]?))
  | .deleteMsg msg =>
    (if msg ∈ q.masters then {q with masters := q.masters.erase msg} else {q with slaves := q.slaves.erase msg},
      .pointer (if msg ∈ q.all then .message msg else .null))

/-- Each queue has messages of its kind. -/
structure Sorted (q : Queues Msg) : Prop where
  masters : ∀ m ∈ q.masters, i2cMsgIsMaster m = true
  slaves : ∀ m ∈ q.slaves, i2cMsgIsMaster m = false

variable {i2cMsgIsMaster} {q : Queues Msg} {call : Call Msg}

theorem outcome_sorted (sorted : Sorted i2cMsgIsMaster q) : Sorted i2cMsgIsMaster (call.outcome i2cMsgIsMaster q).1 := by
  obtain ⟨masters,slaves⟩ := sorted
  cases call with
  | add msg =>
    simp only [Call.outcome]
    cases kind : i2cMsgIsMaster msg with
    | true =>
      refine ⟨fun m member => ?_,slaves⟩
      obtain old | new := List.mem_append.mp member
      · exact masters m old
      · exact List.mem_singleton.mp new ▸ kind
    | false =>
      refine ⟨masters,fun m member => ?_⟩
      obtain old | new := List.mem_append.mp member
      · exact slaves m old
      · exact List.mem_singleton.mp new ▸ kind
  | deleteAt index =>
    simp only [Call.outcome]
    split
    · exact ⟨fun m member => masters m (List.mem_of_mem_eraseIdx member),slaves⟩
    · exact ⟨masters,fun m member => slaves m (List.mem_of_mem_eraseIdx member)⟩
  | deleteMsg msg =>
    simp only [Call.outcome]
    split
    · exact ⟨fun m member => masters m (List.mem_of_mem_erase member),slaves⟩
    · exact ⟨masters,fun m member => slaves m (List.mem_of_mem_erase member)⟩

/-- A call on the vector is the call on the two queues. -/
theorem perform_holds (served : ∀ n, heap n = true → n ≤ memory) (holds : Holds v q.all)
    (sorted : Sorted i2cMsgIsMaster q) (given : (call.perform i2cMsgIsMaster heap v).1.refused = false) :
    Holds (call.perform i2cMsgIsMaster heap v).1 (call.outcome i2cMsgIsMaster q).1.all ∧
      (call.perform i2cMsgIsMaster heap v).2 = (call.outcome i2cMsgIsMaster q).2 := by
  cases call with
  | add msg =>
    obtain ⟨added,code⟩ := add_holds served holds sorted.masters sorted.slaves given
    refine ⟨?_,congrArg Reply.code code⟩
    cases kind : i2cMsgIsMaster msg <;> simpa [Call.perform,Call.outcome,Queues.all,kind] using added
  | deleteAt index =>
    obtain ⟨deleted,reply⟩ := deleteAt_holds holds index
    refine ⟨?_,congrArg Reply.pointer reply⟩
    simp only [Call.outcome]
    split
    · rename_i master
      rwa [Queues.all,List.eraseIdx_append_of_lt_length master] at deleted
    · rename_i slave
      rwa [Queues.all,List.eraseIdx_append_of_length_le (by omega)] at deleted
  | deleteMsg msg =>
    obtain ⟨deleted,reply⟩ := deleteMsg_holds holds msg
    refine ⟨?_,congrArg Reply.pointer reply⟩
    simp only [Call.outcome]
    split
    · rename_i master
      rwa [Queues.all,List.erase_append_left _ master] at deleted
    · rename_i slave
      rwa [Queues.all,List.erase_append_right _ slave] at deleted

/-- A call, and what the heap has while it runs. -/
structure Step (Msg : Type) where
  heap : Nat → Bool
  call : Call Msg

variable (i2cMsgIsMaster)

def run : MsgVector Msg → List (Step Msg) → MsgVector Msg × List (Reply Msg)
  | v,[] => (v,[])
  | v,step::steps =>
    let (v,reply) := step.call.perform i2cMsgIsMaster step.heap v
    let (v,replies) := run v steps
    (v,reply::replies)

/-- No call is refused memory. -/
def Given : MsgVector Msg → List (Step Msg) → Prop
  | _,[] => True
  | v,step::steps => (step.call.perform i2cMsgIsMaster step.heap v).1.refused = false ∧
    Given (step.call.perform i2cMsgIsMaster step.heap v).1 steps

instance decidableGiven : ∀ (v : MsgVector Msg) (steps : List (Step Msg)),Decidable (Given i2cMsgIsMaster v steps)
  | _,[] => inferInstanceAs (Decidable True)
  | v,step::steps =>
    have := decidableGiven (step.call.perform i2cMsgIsMaster step.heap v).1 steps
    inferInstanceAs (Decidable ((step.call.perform i2cMsgIsMaster step.heap v).1.refused = false ∧ _))

def outcomes : Queues Msg → List (Step Msg) → Queues Msg × List (Reply Msg)
  | q,[] => (q,[])
  | q,step::steps =>
    let rest := outcomes (step.call.outcome i2cMsgIsMaster q).1 steps
    (rest.1,(step.call.outcome i2cMsgIsMaster q).2::rest.2)

variable {i2cMsgIsMaster} {steps : List (Step Msg)}

theorem run_holds (served : ∀ step ∈ steps, ∀ n, step.heap n = true → n ≤ memory) (holds : Holds v q.all)
    (sorted : Sorted i2cMsgIsMaster q) (given : Given i2cMsgIsMaster v steps) :
    Holds (run i2cMsgIsMaster v steps).1 (outcomes i2cMsgIsMaster q steps).1.all ∧
      (run i2cMsgIsMaster v steps).2 = (outcomes i2cMsgIsMaster q steps).2 ∧
      Sorted i2cMsgIsMaster (outcomes i2cMsgIsMaster q steps).1 := by
  induction steps generalizing v q with
  | nil => exact ⟨holds,rfl,sorted⟩
  | cons step steps ih =>
    obtain ⟨kept,reply⟩ := perform_holds (served step (by simp)) holds sorted given.1
    obtain ⟨last,replies,kinds⟩ := ih (fun later member => served later (by simp [member])) kept (outcome_sorted sorted) given.2
    exact ⟨last,congrArg₂ List.cons reply replies,kinds⟩

/-- A created vector holds the messages that were added and not deleted, those of masters before those of slaves and
each kind in the order in which it was added; the calls return what they return for the two queues. -/
theorem vector_queues (i2cMsgIsMaster : Msg → Bool) (v : MsgVector Msg) (calm : v.strayed = false) (heap : Nat → Bool)
    (block : Nat → Option Msg) (steps : List (Step Msg))
    (served : ∀ step ∈ steps, ∀ n, step.heap n = true → n ≤ memory)
    (created : (i2cCreateMsgVector heap v block).1.refused = false)
    (given : Given i2cMsgIsMaster (i2cCreateMsgVector heap v block).1 steps) :
    (i2cCreateMsgVector heap v block).2 = -devOk ∧
      Holds (run i2cMsgIsMaster (i2cCreateMsgVector heap v block).1 steps).1 (outcomes i2cMsgIsMaster ⟨[],[]⟩ steps).1.all ∧
      (run i2cMsgIsMaster (i2cCreateMsgVector heap v block).1 steps).2 = (outcomes i2cMsgIsMaster ⟨[],[]⟩ steps).2 ∧
      Sorted i2cMsgIsMaster (outcomes i2cMsgIsMaster ⟨[],[]⟩ steps).1 := by
  obtain ⟨empty,code⟩ := create_holds calm created
  exact ⟨code,run_holds served empty ⟨by simp,by simp⟩ given⟩

end Sequence

/-- The heap meets every request that memory can meet. -/
def roomy (n : Nat) : Bool := n ≤ memory

/-- Twelve messages are added, which is more than a new vector has room for, and two are deleted. -/
def twelve : List (Step Nat) := ((List.range 12).map Call.add ++ [Call.deleteAt 3,Call.deleteMsg 0]).map (⟨roomy,·⟩)

/-- Message 7 is of a slave, the others are of masters. -/
theorem vector_queues_grown :
    Holds (run (fun m => m ≠ 7) (i2cCreateMsgVector roomy ⟨0,0,none,0,false,false⟩ fun _ => none).1 twelve).1
      [1,2,4,5,6,8,9,10,11,7] := by
  obtain ⟨_,holds,_⟩ := vector_queues (fun m => m ≠ 7) ⟨0,0,none,0,false,false⟩ rfl roomy (fun _ => none) twelve
    (List.forall_mem_map.mpr fun _ _ _ => of_decide_eq_true) (by decide) (by decide +kernel)
  exact holds

end BermudaOS.Dev.I2cMsg
