import BermudaOS.Arch.Avr

/-! A thread goes on where it was when another one took its place. -/
namespace BermudaOS.Arch.Avr
open Lib.Stacks

variable {Thread : Type} [DecidableEq Thread] {leaves : Leaves} {s t : Machine Thread} {ret dest pc sp a : Nat}
  {memory : Nat → Byte} {regs : Reg → Byte} {sreg : Byte}

/-- The registers but `r0`, in the order in which they are pushed. -/
def saved : List Reg :=
  [1,2,3,4,5,6,7,8,9,10,11,12,13,14,15,16,17,18,19,20,21,22,23,24,25,26,27,28,29,30,31]

def restored : List Reg :=
  [31,30,29,28,27,26,25,24,23,22,21,20,19,18,17,16,15,14,13,12,11,10,9,8,7,6,5,4,3,2,1]

theorem exec_pushes (leaves : Leaves) (rs : List Reg) (s : Machine Thread) : (rs.map .push).foldl (exec leaves) s =
    {s with memory := pushed (rs.map s.regs) s.memory s.sp,sp := s.sp - rs.length} := by
  induction rs generalizing s with
  | nil => rfl
  | cons r rs ih =>
    have place : s.sp - 1 - rs.length = s.sp - (rs.length + 1) := by omega
    rw [List.map_cons,List.foldl_cons,ih]
    simp only [exec,push,List.map_cons,pushed,List.length_cons,place]

theorem exec_pops (leaves : Leaves) (rs : List Reg) (s : Machine Thread) : (rs.map .pop).foldl (exec leaves) s =
    {s with regs := popped rs s.regs s.memory s.sp,sp := s.sp + rs.length} := by
  induction rs generalizing s with
  | nil => rfl
  | cons r rs ih =>
    have place : s.sp + 1 + rs.length = s.sp + (rs.length + 1) := by omega
    rw [List.map_cons,List.foldl_cons,ih]
    simp only [exec,popped,List.length_cons,place]

theorem word_bytes (small : a < 2^16) : word (high a) (low a) = a := by
  simp only [word,high,low,BitVec.toNat_ofNat]
  omega

/-- What `BermudaSwitchTask` has pushed when it is about to call `BermudaStackSave`. -/
def pushes (ret : Nat) (s : Machine Thread) : List Byte :=
  [low ret,high ret,s.regs 0,s.sreg &&& ~~~0x80] ++ saved.map s.regs ++ [s.regs 24,s.regs 25]

/-- The machine at the call of `BermudaStackSave`. -/
def halfway (ret : Nat) (s : Machine Thread) : Machine Thread :=
  {s with memory := pushed (pushes ret s) s.memory s.sp
          sp := s.sp - 37
          sreg := s.sreg &&& ~~~0x80
          regs := Function.update (Function.update (Function.update s.regs 0 (s.sreg &&& ~~~0x80)) 24 (low (s.sp - 37))) 25
            (high (s.sp - 37))}

/-- The first half of the code. -/
def saveCode : List Instruction :=
  [.cli,.push 0,.in 0 .SREG,.push 0] ++ saved.map .push ++ [.push 24,.push 25,.in 24 .SPL,.in 25 .SPH]

/-- The second half of the code, behind the new stack pointer. -/
def restoreCode : List Instruction := restored.map .pop ++ [.pop 0,.out .SREG 0,.pop 0,.ret]

theorem switchTaskCode_eq : switchTaskCode =
    saveCode ++ [.callStackSave,.pop 25,.pop 24,.out .SPL 24,.out .SPH 25] ++ restoreCode := rfl

theorem save_run (leaves : Leaves) (ret : Nat) (s : Machine Thread) :
    saveCode.foldl (exec leaves) (push (push s (low ret)) (high ret)) = halfway ret s := by
  have begun : [.cli,.push 0,.in 0 .SREG,.push 0].foldl (exec leaves) (push (push s (low ret)) (high ret)) =
      {s with memory := pushed [low ret,high ret,s.regs 0,s.sreg &&& ~~~0x80] s.memory s.sp
              sp := s.sp - 4
              sreg := s.sreg &&& ~~~0x80
              regs := Function.update s.regs 0 (s.sreg &&& ~~~0x80)} := rfl
  have same : saved.map (Function.update s.regs 0 (s.sreg &&& ~~~0x80)) = saved.map s.regs := rfl
  have whole : pushed (pushes ret s) s.memory s.sp = pushed [s.regs 24,s.regs 25]
      (pushed (saved.map s.regs) (pushed [low ret,high ret,s.regs 0,s.sreg &&& ~~~0x80] s.memory s.sp) (s.sp - 4))
      (s.sp - 35) := by
    rw [pushes,pushed_append,pushed_append]
    rfl
  rw [saveCode,List.foldl_append,List.foldl_append,begun,exec_pushes,halfway,whole]
  dsimp only
  rw [same]
  have place : s.sp - 4 - saved.length = s.sp - 35 := by rw [Nat.sub_sub]; rfl
  rw [place]
  rfl

/-- The frame of a thread that is not running, above its stack pointer. -/
structure Frame (memory : Nat → Byte) (sp : Nat) (regs : Reg → Byte) (sreg : Byte) (pc : Nat) : Prop where
  general : ∀ r : Reg, r ≠ 0 → memory (sp + (32 - r.val)) = regs r
  sreg : memory (sp + 32) = sreg
  temporary : memory (sp + 33) = regs 0
  high : memory (sp + 34) = high pc
  low : memory (sp + 35) = low pc

theorem saved_get : ∀ r : Reg, r ≠ 0 → saved[r.val - 1]? = some r := by decide

theorem restored_get : ∀ r : Reg, r ≠ 0 → restored[31 - r.val]? = some r := by decide

theorem restored_nodup : restored.Nodup := by decide

theorem restored_popped (frame : Frame memory sp regs sreg pc) (old : Reg → Byte) (r : Reg) (other : r ≠ 0) :
    popped restored old memory sp r = regs r := by
  obtain ⟨inside,same⟩ := List.getElem?_eq_some_iff.mp (restored_get r other)
  have below := r.isLt
  have place : sp + 1 + (31 - r.val) = sp + (32 - r.val) := by omega
  have read : popped restored old memory sp restored[31 - r.val] = memory (sp + 1 + (31 - r.val)) :=
    popped_get restored_nodup inside
  rw [same,place,frame.general r other] at read
  exact read

theorem restore_run (leaves : Leaves) (frame : Frame s.memory s.sp regs sreg pc) (small : pc < 2^16) :
    restoreCode.foldl (exec leaves) s = {s with regs := regs,sreg := sreg,pc := pc,sp := s.sp + 35} := by
  have ends : [.pop 0,.out .SREG 0,.pop 0,.ret].foldl (exec leaves)
        {s with regs := popped restored s.regs s.memory s.sp,sp := s.sp + 31} =
      {s with regs := Function.update (Function.update (popped restored s.regs s.memory s.sp) 0 (s.memory (s.sp + 32))) 0
                (s.memory (s.sp + 33))
              sreg := s.memory (s.sp + 32)
              pc := word (s.memory (s.sp + 34)) (s.memory (s.sp + 35))
              sp := s.sp + 35} := rfl
  have whole : Function.update (Function.update (popped restored s.regs s.memory s.sp) 0 (s.memory (s.sp + 32))) 0
      (s.memory (s.sp + 33)) = regs := by
    ext1 r
    by_cases first : r = 0
    · subst first
      rw [Function.update_self,frame.temporary]
    · rw [Function.update_of_ne first,Function.update_of_ne first,restored_popped frame _ r first]
  have count : restored.length = 31 := rfl
  rw [restoreCode,List.foldl_append,exec_pops,count,ends,whole,frame.sreg,frame.high,frame.low,word_bytes small]

/-- The memory when the stack pointer of the next thread is taken. -/
def switchMemory (leaves : Leaves) (ret : Nat) (s : Machine Thread) : Nat → Byte := fun a =>
  if leaves.bottom ≤ a ∧ a ≤ s.sp - 37 then leaves.stack a else pushed (pushes ret s) s.memory s.sp a

omit [DecidableEq Thread] in
theorem pushes_length (ret : Nat) (s : Machine Thread) : (pushes ret s).length = 37 := rfl

omit [DecidableEq Thread] in
theorem switchMemory_get {i : Nat} (inside : i < 37) (room : 37 ≤ s.sp) :
    switchMemory leaves ret s (s.sp - i) = (pushes ret s)[i] := by
  rw [switchMemory,if_neg (by omega),pushed_get inside (by rw [pushes_length]; omega)]

omit [DecidableEq Thread] in
theorem switchMemory_outside (room : leaves.bottom + 37 ≤ s.sp) (outside : a < leaves.bottom ∨ s.sp < a) :
    switchMemory leaves ret s a = s.memory a := by
  rw [switchMemory,if_neg (by omega),pushed_outside (by rw [pushes_length]; omega)]

omit [DecidableEq Thread] in
theorem pushes_general (ret : Nat) (s : Machine Thread) (r : Reg) (other : r ≠ 0) : (pushes ret s)[r.val + 3]? = some (s.regs r) := by
  have below := r.isLt
  have first : r.val ≠ 0 := fun zero => other (Fin.ext zero)
  have place : r.val + 3 - 4 = r.val - 1 := by omega
  have head : [low ret,high ret,s.regs 0,s.sreg &&& ~~~0x80].length = 4 := rfl
  have count : (saved.map s.regs).length = 31 := rfl
  rw [pushes,List.append_assoc,List.getElem?_append_right (by rw [head]; omega),head,place,
    List.getElem?_append_left (by rw [count]; omega),List.getElem?_map,saved_get r other]
  rfl

omit [DecidableEq Thread] in
theorem switch_frame (room : 37 ≤ s.sp) :
    Frame (switchMemory leaves ret s) (s.sp - 35) s.regs (s.sreg &&& ~~~0x80) ret := by
  have read (i j : Nat) (inside : i < 37) (place : s.sp - 35 + j = s.sp - i) :
      switchMemory leaves ret s (s.sp - 35 + j) = (pushes ret s)[i] := by
    rw [place,switchMemory_get inside room]
  refine ⟨?_,?_,?_,?_,?_⟩
  · intro r other
    have below := r.isLt
    obtain ⟨inside,same⟩ := List.getElem?_eq_some_iff.mp (pushes_general ret s r other)
    rw [read (r.val + 3) _ (by omega) (by omega)]
    exact same
  · exact read 3 32 (by decide) (by omega)
  · exact read 2 33 (by decide) (by omega)
  · exact read 1 34 (by decide) (by omega)
  · exact read 0 35 (by decide) (by omega)

/-- The stack pointer that `BermudaSwitchTask` is given. -/
def argument (s : Machine Thread) : Nat := word (s.regs 25) (s.regs 24)

theorem word_low (h l : Byte) : low (word h l) = l := by
  apply BitVec.eq_of_toNat_eq
  have bound := l.isLt
  simp only [low,word,BitVec.toNat_ofNat]
  omega

theorem hand_run (leaves : Leaves) (ret : Nat) (room : 37 ≤ s.sp) (small : s.sp < 2^16) : ∃ rest sreg,
    [.callStackSave,.pop 25,.pop 24,.out .SPL 24,.out .SPH 25].foldl (exec leaves) (halfway ret s) =
      {stackSave {s with memory := switchMemory leaves ret s} (s.sp - 37) with
        regs := rest,sreg := sreg,sp := argument s} := by
  have first : switchMemory leaves ret s (s.sp - 37 + 1) = s.regs 25 := by
    have place : s.sp - 37 + 1 = s.sp - 36 := by omega
    rw [place,switchMemory_get (by decide) room]
    rfl
  have second : switchMemory leaves ret s (s.sp - 37 + 1 + 1) = s.regs 24 := by
    have place : s.sp - 37 + 1 + 1 = s.sp - 35 := by omega
    rw [place,switchMemory_get (by decide) room]
    rfl
  have ran : [.callStackSave,.pop 25,.pop 24,.out .SPL 24,.out .SPH 25].foldl (exec leaves) (halfway ret s) =
      {stackSave {s with memory := switchMemory leaves ret s} (word (high (s.sp - 37)) (low (s.sp - 37))) with
        regs := Function.update (Function.update leaves.regs 25 (switchMemory leaves ret s (s.sp - 37 + 1))) 24
          (switchMemory leaves ret s (s.sp - 37 + 1 + 1))
        sreg := leaves.sreg
        sp := word (switchMemory leaves ret s (s.sp - 37 + 1))
          (low (word (high (s.sp - 37 + 1 + 1)) (switchMemory leaves ret s (s.sp - 37 + 1 + 1))))} := rfl
  rw [word_bytes (by omega),word_low,first,second] at ran
  exact ⟨_,_,ran⟩

theorem switch_run (room : 37 ≤ s.sp) (small : s.sp < 2^16)
    (frame : Frame (switchMemory leaves ret s) (argument s) regs sreg pc) (word : pc < 2^16) :
    switchTask leaves ret s = {stackSave {s with memory := switchMemory leaves ret s} (s.sp - 37) with
      regs := regs,sreg := sreg,pc := pc,sp := argument s + 35} := by
  obtain ⟨rest,flags,hand⟩ := hand_run leaves ret room small
  rw [switchTask,switchTaskCode_eq,List.foldl_append,List.foldl_append,save_run,hand]
  exact restore_run leaves frame word

theorem word_high (h l : Byte) : high (word h l) = h := by
  apply BitVec.eq_of_toNat_eq
  have upper := h.isLt
  have lower := l.isLt
  simp only [high,word,BitVec.toNat_ofNat]
  omega

theorem word_lt (h l : Byte) : word h l < 2^16 := by
  have upper := h.isLt
  have lower := l.isLt
  unfold word
  omega

theorem frame_any (memory : Nat → Byte) (sp : Nat) :
    Frame memory sp (fun r => if r = 0 then memory (sp + 33) else memory (sp + (32 - r.val))) (memory (sp + 32))
      (word (memory (sp + 34)) (memory (sp + 35))) :=
  ⟨fun _ other => (if_neg other).symm,rfl,(if_pos rfl).symm,(word_high ..).symm,(word_low ..).symm⟩

/-- The address belongs to the stack of the thread. -/
def Owns (s : Machine Thread) (t : Thread) (a : Nat) : Prop :=
  (s.thread t).stack ≤ a ∧ a < (s.thread t).stack + (s.thread t).stackSize

/-- The fields of the thread and its stack are the same. -/
structure Left (t : Thread) (s u : Machine Thread) : Prop where
  sp : (u.thread t).sp = (s.thread t).sp
  stack : (u.thread t).stack = (s.thread t).stack
  stackSize : (u.thread t).stackSize = (s.thread t).stackSize
  memory : ∀ a, Owns s t a → u.memory a = s.memory a

/-- The stack pointer is in a stack that is apart from the thread's, with room for a switch. -/
structure Apart (t : Thread) (leaves : Leaves) (s : Machine Thread) : Prop where
  room : leaves.bottom + 38 ≤ s.sp
  small : s.sp < 2^16
  disjoint : ∀ a, leaves.bottom ≤ a → a ≤ s.sp → ¬ Owns s t a

/-- Other threads run, switch to each other and are interrupted; they leave the thread's stack alone. -/
inductive Elsewhere (t : Thread) : Machine Thread → Machine Thread → Prop where
  | start (s : Machine Thread) : Elsewhere t s s
  | other {s u v : Machine Thread} (runs : Elsewhere t s u) (left : Left t u v) : Elsewhere t s v
  | switch {s u : Machine Thread} (leaves : Leaves) (ret : Nat) (runs : Elsewhere t s u) (apart : Apart t leaves u)
      (running : u.currentThread ≠ t) (next : u.runQueue ≠ t) : Elsewhere t s (switchTask leaves ret u)

variable {me : Thread}

omit [DecidableEq Thread] in
theorem Left.owns (left : Left me s t) : Owns t me a ↔ Owns s me a := by
  rw [Owns,Owns,left.stack,left.stackSize]

theorem stackSave_thread (s : Machine Thread) (sp : Nat) (me : Thread) :
    ((stackSave s sp).thread me).sp = (if me = s.currentThread then sp + 2 else (s.thread me).sp) ∧
      ((stackSave s sp).thread me).stack = (s.thread me).stack ∧
      ((stackSave s sp).thread me).stackSize = (s.thread me).stackSize := by
  by_cases next : me = s.runQueue
  · subst next
    by_cases running : s.runQueue = s.currentThread <;> simp [stackSave,running]
  · by_cases running : me = s.currentThread
    · subst running
      simp [stackSave,next]
    · simp [stackSave,next,running]

theorem switch_parts (leaves : Leaves) (ret : Nat) (room : 37 ≤ s.sp) (small : s.sp < 2^16) :
    (switchTask leaves ret s).memory = switchMemory leaves ret s ∧
      (switchTask leaves ret s).thread = (stackSave s (s.sp - 37)).thread := by
  rw [switch_run room small (frame_any _ _) (word_lt ..)]
  exact ⟨rfl,rfl⟩

omit [DecidableEq Thread] in
/-- A switch writes nothing into the stack of the thread. -/
theorem apart_memory (apart : Apart me leaves s) (ret : Nat) (owned : Owns s me a) : switchMemory leaves ret s a = s.memory a := by
  have room := apart.room
  have foreign : leaves.bottom ≤ a → ¬ a ≤ s.sp := fun above below => apart.disjoint a above below owned
  exact switchMemory_outside (by omega) (by omega)

theorem switch_left (apart : Apart me leaves s) (running : s.currentThread ≠ me) : Left me s (switchTask leaves ret s) := by
  have room := apart.room
  obtain ⟨memory,thread⟩ := switch_parts leaves ret (by omega) apart.small
  obtain ⟨sp,stack,stackSize⟩ := stackSave_thread s (s.sp - 37) me
  rw [← thread] at sp stack stackSize
  refine ⟨sp.trans (if_neg running.symm),stack,stackSize,?_⟩
  intro a owned
  rw [memory]
  exact apart_memory apart ret owned

omit [DecidableEq Thread] in
theorem Left.trans {s t u : Machine Thread} (first : Left me s t) (second : Left me t u) : Left me s u :=
  ⟨second.sp.trans first.sp,second.stack.trans first.stack,second.stackSize.trans first.stackSize,
    fun a owned => (second.memory a (first.owns.mpr owned)).trans (first.memory a owned)⟩

theorem elsewhere_left (runs : Elsewhere me s t) : Left me s t := by
  induction runs with
  | start => exact ⟨rfl,rfl,rfl,fun _ _ => rfl⟩
  | other runs left ih => exact ih.trans left
  | switch leaves ret runs apart running next ih => exact ih.trans (switch_left apart running)

theorem Frame.congr {memory' : Nat → Byte} (frame : Frame memory sp regs sreg pc)
    (same : ∀ j, 0 < j → j ≤ 35 → memory' (sp + j) = memory (sp + j)) : Frame memory' sp regs sreg pc := by
  refine ⟨?_,?_,?_,?_,?_⟩
  · intro r other
    have below := r.isLt
    rw [same _ (by omega) (by omega),frame.general r other]
  · rw [same 32 (by decide) (by decide),frame.sreg]
  · rw [same 33 (by decide) (by decide),frame.temporary]
  · rw [same 34 (by decide) (by decide),frame.high]
  · rw [same 35 (by decide) (by decide),frame.low]

/-- The thread has left a frame in its stack. -/
structure Waits (me : Thread) (s : Machine Thread) (regs : Reg → Byte) (sreg : Byte) (pc : Nat) : Prop where
  frame : Frame s.memory (s.thread me).sp regs sreg pc
  inside : ∀ j, 0 < j → j ≤ 35 → Owns s me ((s.thread me).sp + j)
  small : pc < 2^16

omit [DecidableEq Thread] in
theorem Left.waits (left : Left me s t) (waits : Waits me s regs sreg pc) : Waits me t regs sreg pc := by
  refine ⟨?_,?_,waits.small⟩
  · rw [left.sp]
    exact waits.frame.congr fun j low high => left.memory _ (waits.inside j low high)
  · intro j low high
    rw [left.sp]
    exact left.owns.mpr (waits.inside j low high)

/-- What the machine is when the thread goes on. -/
structure Resumed (me : Thread) (s t : Machine Thread) (regs : Reg → Byte) (sreg : Byte) (pc : Nat) : Prop where
  regs : t.regs = regs
  sreg : t.sreg = sreg
  pc : t.pc = pc
  sp : t.sp = (s.thread me).sp + 35
  currentThread : t.currentThread = me
  memory : ∀ a, Owns s me a → t.memory a = s.memory a

theorem switch_back (ret : Nat) (apart : Apart me leaves s) (next : s.runQueue = me) (argued : argument s = (s.thread me).sp)
    (waits : Waits me s regs sreg pc) : Resumed me s (switchTask leaves ret s) regs sreg pc := by
  have room := apart.room
  have frame : Frame (switchMemory leaves ret s) (argument s) regs sreg pc := by
    rw [argued]
    exact waits.frame.congr fun j low high => apart_memory apart ret (waits.inside j low high)
  rw [switch_run (by omega) apart.small frame waits.small]
  exact ⟨rfl,rfl,rfl,congrArg (· + 35) argued,next,fun a owned => apart_memory apart ret owned⟩

/-- The thread calls `BermudaSwitchTask` on its own stack. -/
structure Calls (me : Thread) (leaves : Leaves) (s : Machine Thread) : Prop where
  running : s.currentThread = me
  own : (s.thread me).stack ≤ leaves.bottom
  room : leaves.bottom + 38 ≤ s.sp
  top : s.sp < (s.thread me).stack + (s.thread me).stackSize
  small : (s.thread me).stack + (s.thread me).stackSize ≤ 2^16

/-- The thread that calls waits, and nothing above its stack pointer has changed. -/
theorem switch_waits (calls : Calls me leaves s) (small : ret < 2^16) :
    Waits me (switchTask leaves ret s) s.regs (s.sreg &&& ~~~0x80) ret ∧
      ((switchTask leaves ret s).thread me).sp + 35 = s.sp ∧
      (∀ a, Owns (switchTask leaves ret s) me a ↔ Owns s me a) ∧
      ∀ a, s.sp < a → (switchTask leaves ret s).memory a = s.memory a := by
  obtain ⟨rfl,own,room,top,bound⟩ := calls
  obtain ⟨memory,thread⟩ := switch_parts leaves ret (s := s) (by omega) (by omega)
  obtain ⟨sp,stack,stackSize⟩ := stackSave_thread s (s.sp - 37) s.currentThread
  have saved : s.sp - 37 + 2 = s.sp - 35 := by omega
  rw [← thread,if_pos rfl,saved] at sp
  rw [← thread] at stack stackSize
  have owns (a : Nat) : Owns (switchTask leaves ret s) s.currentThread a ↔ Owns s s.currentThread a := by
    rw [Owns,Owns,stack,stackSize]
  refine ⟨⟨?_,?_,small⟩,?_,owns,?_⟩
  · rw [memory,sp]
    exact switch_frame (by omega)
  · intro j low high
    rw [owns,sp]
    constructor <;> omega
  · rw [sp]
    omega
  · intro a above
    rw [memory]
    exact switchMemory_outside (by omega) (.inr above)

/-- A thread that has called `BermudaSwitchTask` gets its context back. -/
theorem switch_returns {leaves' : Leaves} (ret' : Nat) (calls : Calls me leaves s) (small : ret < 2^16)
    (runs : Elsewhere me (switchTask leaves ret s) t) (apart : Apart me leaves' t) (next : t.runQueue = me)
    (argued : argument t = (t.thread me).sp) :
    let u := switchTask leaves' ret' t
    u.regs = s.regs ∧ u.sp = s.sp ∧ u.sreg = s.sreg &&& ~~~0x80 ∧ u.pc = ret ∧ u.currentThread = me ∧
      ∀ a, Owns s me a → s.sp < a → u.memory a = s.memory a := by
  obtain ⟨waits,sp,owns,above⟩ := switch_waits calls small
  have left := elsewhere_left runs
  have resumed := switch_back ret' apart next argued (left.waits waits)
  refine ⟨resumed.regs,?_,resumed.sreg,resumed.pc,resumed.currentThread,?_⟩
  · rw [resumed.sp,left.sp,sp]
  · intro a owned higher
    rw [resumed.memory a (left.owns.mpr ((owns a).mpr owned)),left.memory a ((owns a).mpr owned),above a higher]

/-- The frame that `BermudaStackInit` makes up. -/
def madeUp (handle : Nat) (sreg : Byte) : List Byte := [low handle,high handle,0,sreg] ++ List.replicate 31 0

/-- The registers of a thread that has not run. -/
def fresh (param : Nat) : Reg → Byte := fun r => if r = 24 then low param else if r = 25 then high param else 0

theorem madeUp_frame (memory : Nat → Byte) (sreg : Byte) (handle param : Nat) {top : Nat} (room : 35 ≤ top) :
    Frame (Function.update (Function.update (pushed (madeUp handle sreg) memory top) (top - 35 + 8) (low param)) (top - 35 + 7)
      (high param)) (top - 35) (fresh param) sreg handle := by
  have count : (madeUp handle sreg).length = 35 := rfl
  have read (i j : Nat) (inside : i < 35) (place : i + j = 35) :
      pushed (madeUp handle sreg) memory top (top - 35 + j) = (madeUp handle sreg)[i] := by
    have address : top - 35 + j = top - i := by omega
    rw [address,pushed_get inside (by rw [count]; omega)]
  refine ⟨?_,?_,?_,?_,?_⟩
  · intro r other
    have below := r.isLt
    have positive : r.val ≠ 0 := fun zero => other (Fin.ext zero)
    by_cases first : r = 24
    · subst first
      have apart : top - 35 + 8 ≠ top - 35 + 7 := by omega
      refine (Function.update_of_ne apart ..).trans ?_
      exact Function.update_self ..
    · by_cases second : r = 25
      · subst second
        exact Function.update_self ..
      · have apart : r.val ≠ 24 := fun same => first (Fin.ext same)
        have distinct : r.val ≠ 25 := fun same => second (Fin.ext same)
        have blank : (madeUp handle sreg)[3 + r.val]? = some 0 := by
          have head : [low handle,high handle,0,sreg].length = 4 := rfl
          rw [madeUp,List.getElem?_append_right (by rw [head]; omega),List.getElem?_replicate,if_pos (by rw [head]; omega)]
        obtain ⟨inside,zero⟩ := List.getElem?_eq_some_iff.mp blank
        rw [Function.update_of_ne (by omega),Function.update_of_ne (by omega),read (3 + r.val) _ (by omega) (by omega)]
        exact zero.trans (by simp [fresh,first,second])
  · rw [Function.update_of_ne (by omega),Function.update_of_ne (by omega)]
    exact read 3 32 (by decide) rfl
  · rw [Function.update_of_ne (by omega),Function.update_of_ne (by omega)]
    exact read 2 33 (by decide) rfl
  · rw [Function.update_of_ne (by omega),Function.update_of_ne (by omega)]
    exact read 1 34 (by decide) rfl
  · rw [Function.update_of_ne (by omega),Function.update_of_ne (by omega)]
    exact read 0 35 (by decide) rfl

theorem init_waits {memoryEnd stack stackSize handle : Nat} (large : 35 ≤ stackSize) (small : handle < 2^16)
    (base : 0 < ((stackInit memoryEnd me stack stackSize handle s).thread me).stack) :
    let u := stackInit memoryEnd me stack stackSize handle s
    Waits me u (fresh (s.thread me).param) s.sreg handle ∧ (u.thread me).sp + 35 = (u.thread me).stack + stackSize - 1 := by
  have fields : (stackInit memoryEnd me stack stackSize handle s).thread me =
      {s.thread me with stack := if stack = 0 then memoryEnd - stackSize - 2 else stack
                        stackSize := stackSize
                        sp := (if stack = 0 then memoryEnd - stackSize - 2 else stack) + stackSize - 1 - 35} :=
    Function.update_self ..
  rw [fields] at base
  dsimp only at base ⊢
  have frame := madeUp_frame s.memory s.sreg handle (s.thread me).param
    (show 35 ≤ (if stack = 0 then memoryEnd - stackSize - 2 else stack) + stackSize - 1 by omega)
  refine ⟨⟨?_,?_,small⟩,?_⟩
  · rw [fields]
    exact frame
  · intro j low high
    rw [Owns,fields]
    dsimp only
    omega
  · rw [fields]
    dsimp only
    omega

theorem init_starts {memoryEnd stack stackSize handle : Nat} {leaves : Leaves} (ret : Nat) (large : 35 ≤ stackSize)
    (small : handle < 2^16) (base : 0 < ((stackInit memoryEnd me stack stackSize handle s).thread me).stack)
    (runs : Elsewhere me (stackInit memoryEnd me stack stackSize handle s) t) (apart : Apart me leaves t)
    (next : t.runQueue = me) (argued : argument t = (t.thread me).sp) :
    let u := switchTask leaves ret t
    u.pc = handle ∧ u.regs = fresh (s.thread me).param ∧ u.sreg = s.sreg ∧ u.currentThread = me ∧
      u.sp = ((stackInit memoryEnd me stack stackSize handle s).thread me).stack + stackSize - 1 := by
  obtain ⟨waits,sp⟩ := init_waits large small base
  have left := elsewhere_left runs
  have resumed := switch_back ret apart next argued (left.waits waits)
  exact ⟨resumed.pc,resumed.regs,resumed.sreg,resumed.currentThread,by rw [resumed.sp,left.sp,sp]⟩

/-- A thread that calls `BermudaSwitchTask` and is switched to again after any run of other threads goes on with its
registers, its stack pointer, its flags but the one for interrupts, and its stack. The first switch to a thread goes to
its handle, with the parameter in `r24` and `r25` and the other registers 0. -/
theorem context_switch (me : Thread) :
    (∀ (s t : Machine Thread) (leaves leaves' : Leaves) (ret ret' : Nat), Calls me leaves s → ret < 2^16 →
      Elsewhere me (switchTask leaves ret s) t → Apart me leaves' t → t.runQueue = me → argument t = (t.thread me).sp →
      (switchTask leaves' ret' t).regs = s.regs ∧ (switchTask leaves' ret' t).sp = s.sp ∧
      (switchTask leaves' ret' t).sreg = s.sreg &&& ~~~0x80 ∧ (switchTask leaves' ret' t).pc = ret ∧
      (switchTask leaves' ret' t).currentThread = me ∧
      ∀ a, Owns s me a → s.sp < a → (switchTask leaves' ret' t).memory a = s.memory a) ∧
    ∀ (s t : Machine Thread) (leaves : Leaves) (ret memoryEnd stack stackSize handle : Nat), 35 ≤ stackSize → handle < 2^16 →
      0 < ((stackInit memoryEnd me stack stackSize handle s).thread me).stack →
      Elsewhere me (stackInit memoryEnd me stack stackSize handle s) t → Apart me leaves t → t.runQueue = me →
      argument t = (t.thread me).sp →
      (switchTask leaves ret t).pc = handle ∧ (switchTask leaves ret t).regs = fresh (s.thread me).param ∧
      (switchTask leaves ret t).sreg = s.sreg ∧ (switchTask leaves ret t).currentThread = me ∧
      (switchTask leaves ret t).sp = ((stackInit memoryEnd me stack stackSize handle s).thread me).stack + stackSize - 1 :=
  ⟨fun _ _ _ _ _ ret' calls small runs apart next argued => switch_returns ret' calls small runs apart next argued,
    fun _ _ _ ret _ _ _ _ large small base runs apart next argued => init_starts ret large small base runs apart next argued⟩

/-- Two threads; the first runs and the second is next. -/
def two : Machine Bool where
  regs r := if r = 25 then 0x02 else if r = 24 then 0xDC else 5
  sreg := 0x83
  sp := 0x1F0
  pc := 0
  memory _ := 0
  thread
    | false => ⟨0x100,0x100,0,0,.THREAD_READY⟩
    | true => ⟨0x200,0x100,0x2DC,0x1234,.THREAD_READY⟩
  currentThread := false
  runQueue := true

def leavesAt (bottom : Nat) : Leaves := ⟨fun _ => 0,0,bottom,fun _ => 0⟩

/-- The second thread has run and is about to switch. -/
def two' : Machine Bool := {switchTask (leavesAt 0x100) 0x777 two with
  regs := fun r => if r = 25 then 0x01 else if r = 24 then 0xCD else 9
  sp := 0x2F0
  runQueue := false}

/-- The second thread is made anew. -/
def anew : Machine Bool := stackInit 0 true 0x200 0x100 0xABC two

theorem context_switch_two : ((switchTask (leavesAt 0x200) 0x888 two').regs 7 = 5 ∧
      (switchTask (leavesAt 0x200) 0x888 two').sreg = 0x03) ∧
    (switchTask (leavesAt 0x100) 0x777 anew).regs 24 = 0x34 ∧ (switchTask (leavesAt 0x100) 0x777 anew).pc = 0xABC := by
  have calls : Calls false (leavesAt 0x100) two := ⟨rfl,by decide,by decide,by decide,by decide⟩
  have fields : two'.thread false = ⟨0x100,0x100,0x1CD,0,.THREAD_READY⟩ := rfl
  have apart : Apart false (leavesAt 0x200) two' := by
    refine ⟨by decide,by decide,?_⟩
    intro a low high owned
    rw [Owns,fields] at owned
    exact absurd owned.2 (Nat.not_lt.mpr low)
  obtain ⟨regs,_,sreg,_⟩ := (context_switch false).1 two two' (leavesAt 0x100) (leavesAt 0x200) 0x777 0x888 calls (by decide)
    (.other (.start _) ⟨rfl,rfl,rfl,fun _ _ => rfl⟩) apart rfl (by rw [fields]; rfl)
  have made : anew.thread true = ⟨0x200,0x100,0x2DC,0x1234,.THREAD_READY⟩ := rfl
  have apart' : Apart true (leavesAt 0x100) anew := by
    refine ⟨by decide,by decide,?_⟩
    intro a low high owned
    rw [Owns,made] at owned
    have below : a ≤ 0x1F0 := high
    have above : 0x200 ≤ a := owned.1
    omega
  obtain ⟨pc,fresh,_⟩ := (context_switch true).2 two anew (leavesAt 0x100) 0x777 0 0x200 0x100 0xABC (by decide) (by decide)
    (by decide) (.start _) apart' rfl (by rw [made]; rfl)
  exact ⟨⟨by rw [regs]; rfl,by rw [sreg]; rfl⟩,by rw [fresh]; rfl,pc⟩

end BermudaOS.Arch.Avr
