import BermudaOS.Lib.Stacks
import Mathlib.Data.BitVec

/-! Context switches on the AVR: `arch/avr/task_switch.S` and `arch/avr/stack.c`. Addresses are numbers; no stack
reaches down to the address 0. -/
namespace BermudaOS.Arch.Avr
open Lib.Stacks

abbrev Byte := BitVec 8

abbrev Reg := Fin 32

instance reg_neZero : NeZero 32 := ⟨by decide⟩

inductive ThreadState where
  | THREAD_RUNNING
  | THREAD_READY
  | THREAD_SLEEPING
  | THREAD_WAITING

/-- The fields of `THREAD` that the context has to do with. -/
structure ThreadFields where
  stack : Nat
  stackSize : Nat
  sp : Nat
  param : Nat
  state : ThreadState

structure Machine (Thread : Type) where
  regs : Reg → Byte
  sreg : Byte
  sp : Nat
  /-- The program counter, in words. -/
  pc : Nat
  memory : Nat → Byte
  thread : Thread → ThreadFields
  currentThread : Thread
  runQueue : Thread

inductive Port where
  | SREG
  | SPL
  | SPH

inductive Instruction where
  | cli
  | push (r : Reg)
  | pop (r : Reg)
  | in (r : Reg) (port : Port)
  | out (port : Port) (r : Reg)
  | callStackSave
  | ret

def low (n : Nat) : Byte := BitVec.ofNat 8 n

def high (n : Nat) : Byte := BitVec.ofNat 8 (n / 256)

def word (high low : Byte) : Nat := high.toNat * 256 + low.toNat

/-- What the compiled `BermudaStackSave` leaves behind: registers, flags, and what it wrote to its part of the stack. -/
structure Leaves where
  regs : Reg → Byte
  sreg : Byte
  bottom : Nat
  stack : Nat → Byte

variable {Thread : Type} [DecidableEq Thread]

/-- `BermudaStackSave`. -/
def stackSave (s : Machine Thread) (sp : Nat) : Machine Thread :=
  let thread := Function.update s.thread s.currentThread {s.thread s.currentThread with sp := sp + 2}
  {s with thread := Function.update thread s.runQueue {thread s.runQueue with state := .THREAD_RUNNING},
          currentThread := s.runQueue}

/-- The call, with its argument in `r25` and `r24`. -/
def callStackSave (leaves : Leaves) (s : Machine Thread) : Machine Thread :=
  {stackSave s (word (s.regs 25) (s.regs 24)) with
    regs := leaves.regs
    sreg := leaves.sreg
    memory := fun a => if leaves.bottom ≤ a ∧ a ≤ s.sp then leaves.stack a else s.memory a}

omit [DecidableEq Thread] in
def push (s : Machine Thread) (b : Byte) : Machine Thread := {s with memory := Function.update s.memory s.sp b,sp := s.sp - 1}

def exec (leaves : Leaves) (s : Machine Thread) : Instruction → Machine Thread
  | .cli => {s with sreg := s.sreg &&& ~~~0x80}
  | .push r => push s (s.regs r)
  | .pop r => {s with regs := Function.update s.regs r (s.memory (s.sp + 1)),sp := s.sp + 1}
  | .in r .SREG => {s with regs := Function.update s.regs r s.sreg}
  | .in r .SPL => {s with regs := Function.update s.regs r (low s.sp)}
  | .in r .SPH => {s with regs := Function.update s.regs r (high s.sp)}
  | .out .SREG r => {s with sreg := s.regs r}
  | .out .SPL r => {s with sp := word (high s.sp) (s.regs r)}
  | .out .SPH r => {s with sp := word (s.regs r) (low s.sp)}
  | .callStackSave => callStackSave leaves s
  | .ret => {s with pc := word (s.memory (s.sp + 1)) (s.memory (s.sp + 2)),sp := s.sp + 2}

def switchTaskCode : List Instruction :=
  [.cli,.push 0,.in 0 .SREG,.push 0] ++
  [1,2,3,4,5,6,7,8,9,10,11,12,13,14,15,16,17,18,19,20,21,22,23,24,25,26,27,28,29,30,31].map .push ++
  [.push 24,.push 25,.in 24 .SPL,.in 25 .SPH,.callStackSave,.pop 25,.pop 24,.out .SPL 24,.out .SPH 25] ++
  [31,30,29,28,27,26,25,24,23,22,21,20,19,18,17,16,15,14,13,12,11,10,9,8,7,6,5,4,3,2,1].map .pop ++
  [.pop 0,.out .SREG 0,.pop 0,.ret]

/-- A call of `BermudaSwitchTask` that is to return to `ret`; the new stack pointer is in `r25` and `r24`. -/
def switchTask (leaves : Leaves) (ret : Nat) (s : Machine Thread) : Machine Thread :=
  switchTaskCode.foldl (exec leaves) (push (push s (low ret)) (high ret))

/-- `BermudaStackInit`; the main stack lies at the end of the memory. -/
def stackInit (memoryEnd : Nat) (t : Thread) (stack stackSize handle : Nat) (s : Machine Thread) : Machine Thread :=
  let stack := if stack = 0 then memoryEnd - stackSize - 2 else stack
  let frame := [low handle,high handle,0,s.sreg] ++ List.replicate 31 0
  let sp := stack + stackSize - 1 - frame.length
  let memory := pushed frame s.memory (stack + stackSize - 1)
  let memory := Function.update memory (sp + 8) (low (s.thread t).param)
  {s with memory := Function.update memory (sp + 7) (high (s.thread t).param)
          thread := Function.update s.thread t {s.thread t with stack := stack,stackSize := stackSize,sp := sp}}

end BermudaOS.Arch.Avr
