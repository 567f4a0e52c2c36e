import BermudaOS.Clib.Strings
import Mathlib.Data.BitVec

/-! Characters sent to streams, `lib/c/stdio/fputc.c` and `putc.c`. A stream writes down
the characters that its device was given; the answers of the device are arbitrary. -/
namespace BermudaOS.Clib.Streams
open Lib.ByteMemory Strings

structure Stream where
  flags : BitVec 16
  length : BitVec 16
  sent : List Int
  /-- What `put` answers to a character, behind those that were sent before. -/
  put : List Int → Int → Int

/-- `__SWR`. -/
def SWR : BitVec 16 := 0x2

def EOF : Int := 1

/-- A `char` that becomes an `int`. -/
def ofChar (c : UInt8) : Int := c.toInt8.toInt

def fputc (c : Int) (file : Stream) : Stream × Int :=
  if file.flags &&& SWR ≠ 0 then
    let rc := file.put file.sent c
    let file := {file with sent := file.sent ++ [c]}
    (if rc ≠ -EOF ∨ rc = c then {file with length := file.length + 1} else file,rc)
  else (file,-1)

def putc (c : Int) (stream : Stream) : Stream × Int := fputc c stream

def fputs (m : Memory) : Nat → Nat → Stream → Option Stream
  | 0,_,_ => none
  | n+1,s,f => if m s = 0 then some f else fputs m n (s + 1) (fputc (ofChar (m s)) f).1

/-- The stream has got the characters, if it may be written to. -/
structure Sends (stream : Stream) (cs : List Int) (next : Stream) : Prop where
  flags : next.flags = stream.flags
  put : next.put = stream.put
  sent : next.sent = stream.sent ++ if stream.flags &&& SWR ≠ 0 then cs else []

variable {m : Memory} {a n : Nat} {s : List UInt8} {stream next last : Stream} {cs ds : List Int}

theorem Sends.nothing (stream : Stream) : Sends stream [] stream := ⟨rfl,rfl,by simp⟩

theorem Sends.append (first : Sends stream cs next) (second : Sends next ds last) : Sends stream (cs ++ ds) last := by
  refine ⟨second.flags.trans first.flags,second.put.trans first.put,?_⟩
  rw [second.sent,first.sent,first.flags,List.append_assoc]
  split <;> rfl

theorem Sends.written (sends : Sends stream cs next) (writable : stream.flags &&& SWR ≠ 0) :
    next.sent = stream.sent ++ cs := by
  rw [sends.sent,if_pos writable]

theorem ofChar_injective : Function.Injective ofChar := by
  intro c d same
  have bytes : c.toInt8 = d.toInt8 := Int8.toInt_inj.mp same
  exact congrArg Int8.toUInt8 bytes

theorem fputc_sends (c : Int) (stream : Stream) : Sends stream [c] (fputc c stream).1 := by
  unfold fputc
  split
  · rename_i writable
    dsimp only
    split <;> exact ⟨rfl,rfl,by rw [if_pos writable]⟩
  · rename_i closed
    exact ⟨rfl,rfl,by rw [if_neg closed,List.append_nil]⟩

theorem putc_sends (c : Int) (stream : Stream) : Sends stream [c] (putc c stream).1 := fputc_sends c stream

theorem foldl_sends (cs : List Int) (stream : Stream) :
    Sends stream cs (cs.foldl (fun stream c => (fputc c stream).1) stream) := by
  induction cs generalizing stream with
  | nil => exact .nothing stream
  | cons c cs ih => exact (fputc_sends c stream).append (ih _)

theorem fputs_sends (stream : Stream) (string : StringAt m a s) (enough : s.length < n) :
    ∃ next,fputs m n a stream = some next ∧ Sends stream (s.map ofChar) next := by
  induction s generalizing a n stream with
  | nil =>
    obtain ⟨n,rfl⟩ := Nat.exists_eq_add_one_of_ne_zero (Nat.ne_zero_of_lt enough)
    exact ⟨stream,if_pos string,.nothing stream⟩
  | cons c s ih =>
    obtain ⟨n,rfl⟩ := Nat.exists_eq_add_one_of_ne_zero (Nat.ne_zero_of_lt enough)
    obtain ⟨first,nonzero,rest⟩ := string
    obtain ⟨next,eq,sends⟩ := ih _ rest (Nat.lt_of_succ_lt_succ enough)
    refine ⟨next,?_,(fputc_sends (ofChar c) stream).append sends⟩
    rw [fputs,first,if_neg nonzero]
    exact eq

end BermudaOS.Clib.Streams
