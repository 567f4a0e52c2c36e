import BermudaOS.Clib.Printf

/-! The transmitter of the serial port, `dev/usart/busses/atmega-usart.c`. A thread polls, clears and
writes the registers one access at a time; between any two accesses the hardware may move the byte of
the data register to the shift register, and the one of the shift register to the line. -/
namespace BermudaOS.Dev.UsartLine
open Lib.ByteMemory Clib.Strings Clib.Streams Clib.Printf

/-- The bit `UDRE0` is set while `udr` is empty. -/
structure Transmitter where
  udr : Option UInt8
  shift : Option UInt8
  txc : Bool
  line : List UInt8
  deriving DecidableEq,Repr

def newline : Int := 10

def carriageReturn : Int := 13

def byteOf (c : Int) : UInt8 := UInt8.ofInt c

/-- A full data register does not take another byte. -/
def Transmitter.write (t : Transmitter) (c : Int) : Transmitter :=
  if t.udr = none then {t with udr := some (byteOf c)} else t

/-- What is left to do in the calls of `BermudaUsartWriteByte`, the next first. -/
inductive Todo
  | enter (c : Int)
  | poll (c : Int)
  | clear (c : Int)
  | put (c : Int)
  deriving DecidableEq,Repr

abbrev State := List Todo × Transmitter

/-- The next access of the thread. -/
def act : State → State
  | ([],t) => ([],t)
  | (.enter c::rest,t) => (if c = newline then .enter carriageReturn::.poll c::rest else .poll c::rest,t)
  | (.poll c::rest,t) => (if t.udr = none then .clear c::rest else .poll c::rest,t)
  | (.clear c::rest,t) => (.put c::rest,{t with txc := false})
  | (.put c::rest,t) => (rest,t.write c)

inductive Step : State → State → Prop
  | act (s : State) : Step s (act s)
  | load {todo : List Todo} {t : Transmitter} {b : UInt8} (waits : t.udr = some b) (free : t.shift = none) :
    Step (todo,t) (todo,{t with udr := none,shift := some b})
  | leave {todo : List Todo} {t : Transmitter} {b : UInt8} (full : t.shift = some b) :
    Step (todo,t) (todo,{t with shift := none,txc := t.txc || t.udr.isNone,line := t.line ++ [b]})

/-- A run of steps with `n` changes, in any order. A poll of a full register changes nothing. -/
inductive Run (start : State) : Nat → State → Prop
  | start : Run start 0 start
  | wait {n : Nat} {s : State} (run : Run start n s) (step : Step s s) : Run start n s
  | change {n : Nat} {s t : State} (run : Run start n s) (step : Step s t) (moved : t ≠ s) : Run start (n + 1) t

section Run

variable {start s : State} {n : Nat}

theorem run_keeps {I : State → Prop} (first : I start) (keeps : ∀ s t, I s → Step s t → I t) (run : Run start n s) :
    I s := by
  induction run with
  | start => exact first
  | wait _ _ ih => exact ih
  | change _ step _ ih => exact keeps _ _ ih step

/-- The changes and what is left add up to what there was at the start. -/
theorem run_counts {I : State → Prop} {left : State → Nat} (first : I start)
    (keeps : ∀ s t, I s → Step s t → I t) (drops : ∀ s t, I s → Step s t → t ≠ s → left s = left t + 1)
    (run : Run start n s) : n + left s = left start := by
  induction run with
  | start => exact Nat.zero_add _
  | wait _ _ ih => exact ih
  | change run step moved ih =>
    have dropped := drops _ _ (run_keeps first keeps run) step moved
    omega

end Run

/-- The bytes that a call puts on the line. -/
def bytes (c : Int) : List UInt8 := if c = newline then [byteOf carriageReturn,byteOf newline] else [byteOf c]

def Todo.bytes : Todo → List UInt8
  | .enter c => UsartLine.bytes c
  | .poll c => [byteOf c]
  | .clear c => [byteOf c]
  | .put c => [byteOf c]

/-- The steps until the bytes have left. -/
def Todo.left : Todo → Nat
  | .enter c => 6 * (UsartLine.bytes c).length
  | .poll _ => 5
  | .clear _ => 4
  | .put _ => 3

/-- The bytes that have left, those that are under way and those that are still to come. -/
def whole (s : State) : List UInt8 := s.2.line ++ s.2.shift.toList ++ s.2.udr.toList ++ s.1.flatMap Todo.bytes

def left (s : State) : Nat := (s.1.map Todo.left).sum + 2 * s.2.udr.toList.length + s.2.shift.toList.length

/-- The thread is not behind the poll yet. -/
def Todo.before : Todo → Bool
  | .enter _ => true
  | .poll _ => true
  | .clear _ => false
  | .put _ => false

/-- One call at most is behind its poll, and nobody fills the data register meanwhile. -/
structure Ready (s : State) : Prop where
  later : ∀ x ∈ s.1.tail, x.before = true
  room : ∀ x ∈ s.1, x.before = false → s.2.udr = none

/-- The last byte sets `TXC0`. -/
def Told (s : State) : Prop := s.1 = [] → s.2.udr = none → s.2.shift = none → s.2.txc = true

variable {s t : State} {todo rest : List Todo} {u : Transmitter}

theorem ready_cons {x : Todo} (room : x.before = false → u.udr = none) (later : ∀ y ∈ rest, y.before = true) :
    Ready (x::rest,u) := by
  refine ⟨later,fun y member behind => ?_⟩
  rcases List.mem_cons.mp member with rfl | inside
  · exact room behind
  · rw [later y inside] at behind
    cases behind

theorem ready_waiting (later : ∀ y ∈ todo, y.before = true) : Ready (todo,u) := by
  refine ⟨fun y member => later y (List.mem_of_mem_tail member),fun y member behind => ?_⟩
  rw [later y member] at behind
  cases behind

theorem act_ready (ready : Ready s) : Ready (act s) := by
  obtain ⟨todo,u⟩ := s
  cases todo with
  | nil => exact ready
  | cons first rest =>
    have later := ready.later
    cases first with
    | enter c =>
      simp only [act]
      split
      · exact ready_cons (by simp [Todo.before]) (List.forall_mem_cons.mpr ⟨rfl,later⟩)
      · exact ready_cons (by simp [Todo.before]) later
    | poll c =>
      simp only [act]
      split
      · rename_i free
        exact ready_cons (fun _ => free) later
      · exact ready_cons (by simp [Todo.before]) later
    | clear c => exact ready_cons (fun _ => ready.room (.clear c) (by simp) rfl) later
    | put c => exact ready_waiting later

theorem step_ready (ready : Ready s) (step : Step s t) : Ready t := by
  cases step with
  | act => exact act_ready ready
  | load waits free => exact ⟨ready.later,fun _ _ _ => rfl⟩
  | leave full => exact ⟨ready.later,ready.room⟩

/-- A byte is written only where the data register is empty: nothing is lost. -/
theorem act_whole (ready : Ready s) : whole (act s) = whole s := by
  obtain ⟨todo,u⟩ := s
  cases todo with
  | nil => rfl
  | cons first rest =>
    cases first with
    | enter c =>
      simp only [act]
      split
      · rename_i line
        simp [whole,Todo.bytes,bytes,line,newline,carriageReturn]
      · rename_i other
        simp [whole,Todo.bytes,bytes,other]
    | poll c =>
      simp only [act]
      split <;> rfl
    | clear c => rfl
    | put c =>
      have free : u.udr = none := ready.room (.put c) (by simp) rfl
      simp [act,whole,Transmitter.write,free,Todo.bytes]

theorem step_whole (ready : Ready s) (step : Step s t) : whole t = whole s := by
  cases step with
  | act => exact act_whole ready
  | load waits free => simp [whole,waits,free]
  | leave full => simp [whole,full]

theorem act_left (ready : Ready s) (moved : act s ≠ s) : left s = left (act s) + 1 := by
  obtain ⟨todo,u⟩ := s
  cases todo with
  | nil => exact absurd rfl moved
  | cons first rest =>
    cases first with
    | enter c =>
      simp only [act]
      split
      · rename_i line
        simp [left,Todo.left,bytes,line,newline,carriageReturn]
        omega
      · rename_i other
        simp [left,Todo.left,bytes,other]
        omega
    | poll c =>
      simp only [act] at moved ⊢
      split at moved
      · rename_i free
        simp [left,Todo.left,free]
        omega
      · exact absurd rfl moved
    | clear c =>
      simp only [act,left,Todo.left,List.map_cons,List.sum_cons]
      omega
    | put c =>
      have free : u.udr = none := ready.room (.put c) (by simp) rfl
      simp [act,left,Transmitter.write,free,Todo.left]
      omega

theorem step_left (ready : Ready s) (step : Step s t) (moved : t ≠ s) : left s = left t + 1 := by
  cases step with
  | act => exact act_left ready moved
  | load waits free => simp [left,waits,free]
  | leave full => simp [left,full]

theorem step_told (ready : Ready s) (told : Told s) (step : Step s t) : Told t := by
  cases step with
  | act =>
    obtain ⟨todo,u⟩ := s
    intro none_left
    cases todo with
    | nil => exact told rfl
    | cons first rest =>
      cases first with
      | put c =>
        have free : u.udr = none := ready.room (.put c) (by simp) rfl
        simp [act,Transmitter.write,free]
      | enter c =>
        simp only [act] at none_left
        split at none_left <;> cases none_left
      | poll c =>
        simp only [act] at none_left
        split at none_left <;> cases none_left
      | clear c => cases none_left
  | load waits free => intro _ _ empty; cases empty
  | leave full =>
    intro _ empty _
    simp only at empty
    simp [empty]

/-- Where no step changes anything any more, everything has been sent. -/
theorem stuck_done (stuck : ∀ t, Step s t → t = s) : s.1 = [] ∧ s.2.udr = none ∧ s.2.shift = none := by
  obtain ⟨todo,u⟩ := s
  have shifted : u.shift = none := by
    cases full : u.shift with
    | none => rfl
    | some b => simpa [full] using congrArg (fun s : State => s.2.shift) (stuck _ (.leave full))
  have loaded : u.udr = none := by
    cases waits : u.udr with
    | none => rfl
    | some b => simpa [waits] using congrArg (fun s : State => s.2.udr) (stuck _ (.load waits shifted))
  refine ⟨?_,loaded,shifted⟩
  have same := congrArg Prod.fst (stuck _ (.act (todo,u)))
  cases todo with
  | nil => rfl
  | cons first rest =>
    cases first with
    | enter c =>
      simp only [act] at same
      split at same <;> simp at same
    | poll c => simp [act,loaded] at same
    | clear c => simp [act] at same
    | put c => exact absurd (congrArg List.length same) (by simp [act])

/-- The line, with what was under way on it. -/
def Transmitter.queued (u : Transmitter) : List UInt8 := u.line ++ u.shift.toList ++ u.udr.toList

/-- A state of a run that writes the characters `cs`, after `n` changes. -/
structure Carried (cs : List Int) (u : Transmitter) (n : Nat) (s : State) : Prop where
  front : s.2.line.IsPrefix (u.queued ++ cs.flatMap bytes)
  room : ∀ c rest, s.1 = .put c::rest → s.2.udr = none
  short : n ≤ 6 * (cs.flatMap bytes).length + 3
  ends : (∀ t, Step s t → t = s) → s.1 = [] ∧ s.2.udr = none ∧ s.2.shift = none ∧ s.2.line = u.queued ++ cs.flatMap bytes ∧
    (cs ≠ [] → s.2.txc = true)

theorem entered_whole (cs : List Int) (u : Transmitter) : whole (cs.map .enter,u) = u.queued ++ cs.flatMap bytes := by
  simp [whole,Transmitter.queued,List.flatMap_map,Todo.bytes]

theorem entered_left (cs : List Int) (u : Transmitter) : left (cs.map .enter,u) ≤ 6 * (cs.flatMap bytes).length + 3 := by
  have calls : ((cs.map Todo.enter).map Todo.left).sum = 6 * (cs.flatMap bytes).length := by
    induction cs with
    | nil => rfl
    | cons c cs ih =>
      simp only [List.map_cons,List.sum_cons,List.flatMap_cons,List.length_append,Todo.left] at ih ⊢
      omega
  have shifting : u.shift.toList.length ≤ 1 := by cases u.shift <;> simp
  have loaded : u.udr.toList.length ≤ 1 := by cases u.udr <;> simp
  simp only [left,calls]
  omega

theorem entered_ready (cs : List Int) (u : Transmitter) : Ready (cs.map .enter,u) := by
  apply ready_waiting
  intro x member
  obtain ⟨c,-,rfl⟩ := List.mem_map.mp member
  rfl

theorem run_carried {cs : List Int} {n : Nat} (run : Run (cs.map .enter,u) n s) : Carried cs u n s := by
  have ready : Ready s := run_keeps (entered_ready cs u) (fun _ _ => step_ready) run
  have kept : Ready s ∧ whole s = u.queued ++ cs.flatMap bytes := by
    refine run_keeps (I := fun s => Ready s ∧ whole s = u.queued ++ cs.flatMap bytes) ?_ ?_ run
    · exact ⟨entered_ready cs u,entered_whole cs u⟩
    · rintro s t ⟨ready,same⟩ step
      exact ⟨step_ready ready step,(step_whole ready step).trans same⟩
  have count := run_counts (entered_ready cs u) (fun _ _ => step_ready) (fun _ _ => step_left) run
  have few := entered_left cs u
  refine ⟨?_,?_,by omega,fun stuck => ?_⟩
  · rw [← kept.2,whole]
    exact ⟨s.2.shift.toList ++ s.2.udr.toList ++ s.1.flatMap Todo.bytes,by simp⟩
  · intro c rest next
    exact ready.room (.put c) (by rw [next]; simp) rfl
  · obtain ⟨done,loaded,shifted⟩ := stuck_done stuck
    refine ⟨done,loaded,shifted,?_,fun some_text => ?_⟩
    · rw [← kept.2,whole,done,loaded,shifted]
      simp
    · have told : Ready s ∧ Told s := by
        refine run_keeps (I := fun s => Ready s ∧ Told s) ⟨entered_ready cs u,fun empty => ?_⟩ ?_ run
        · exact absurd (List.map_eq_nil_iff.mp empty) some_text
        · rintro s t ⟨ready,told⟩ step
          exact ⟨step_ready ready step,step_told ready told step⟩
      exact told.2 done loaded shifted

/-- What a character of a text looks like on the line. -/
def crlf (c : UInt8) : List UInt8 := if c = 10 then [13,10] else [c]

theorem byteOf_congr {x : Int} {c : UInt8} (same : (x - c.toNat) % 256 = 0) : byteOf x = c := by
  apply UInt8.toNat_inj.mp
  have small := c.toNat_lt
  have value : (byteOf x).toNat = (x % 256).toNat % 256 := rfl
  omega

theorem byteOf_ofChar (c : UInt8) : byteOf (ofChar c) = c := by
  apply byteOf_congr
  have value : ofChar c = if 2 * c.toNat < 2^8 then (c.toNat : Int) else (c.toNat : Int) - (2^8 : Nat) :=
    BitVec.toInt_eq_toNat_cond c.toBitVec
  rw [value]
  split <;> omega

theorem bytes_ofChar (c : UInt8) : bytes (ofChar c) = crlf c := by
  have line : ofChar c = newline ↔ c = 10 := ofChar_injective.eq_iff (b := 10)
  simp only [bytes,crlf,line,byteOf_ofChar]
  split <;> rfl

theorem byteOf_unsigned (c : UInt8) : byteOf (c.toNat : Int) = c := byteOf_congr (by simp)

theorem bytes_unsigned (c : UInt8) : bytes (c.toNat : Int) = crlf c := by
  have line : (c.toNat : Int) = newline ↔ c = 10 := by
    constructor
    · intro same
      rw [← byteOf_unsigned c,same]
      rfl
    · rintro rfl
      rfl
  simp only [bytes,crlf,line,byteOf_unsigned]
  split <;> rfl

/-- The loop of `usart_write`. -/
def writeLoop (m : Memory) (buff : Nat) : Nat → Nat → Stream → Stream
  | 0,_,stream => stream
  | n+1,x,stream => writeLoop m buff n (x + 1) (fputc ((m (buff + x)).toNat : Int) stream).1

def usartWrite (m : Memory) (stream : Stream) (buff size : Nat) : Stream × Int := (writeLoop m buff size 0 stream,0)

/-- `fwrite` to the stream of the serial port, which has a `write`. -/
def fwrite (m : Memory) (stream : Stream) (buff size : Nat) : Stream × Int :=
  if stream.flags &&& SWR ≠ 0 then usartWrite m stream buff size else (stream,-2)

variable {m : Memory} {a limit : Nat} {text : List UInt8} {stream next : Stream}

theorem writeLoop_sends (buff x : Nat) (stream : Stream) (string : StringAt m (buff + x) text) :
    Sends stream (text.map fun c => (c.toNat : Int)) (writeLoop m buff text.length x stream) := by
  induction text generalizing x stream with
  | nil => exact .nothing stream
  | cons c text ih =>
    obtain ⟨first,-,rest⟩ := string
    rw [List.length_cons,writeLoop,first]
    exact (fputc_sends (c.toNat : Int) stream).append (ih (x + 1) _ rest)

/-- The characters that a call gave to `BermudaUsartWriteByte` put these bytes on the line, in whatever order
the thread and the hardware go on. -/
def Puts (u : Transmitter) (stream next : Stream) (text : List UInt8) : Prop :=
  ∃ cs, next.sent = stream.sent ++ cs ∧ cs.flatMap bytes = text ∧
    ∀ n s, Run (cs.map .enter,u) n s → Carried cs u n s

theorem sends_puts {cs : List Int} (u : Transmitter) (writable : stream.flags &&& SWR ≠ 0) (sends : Sends stream cs next) :
    Puts u stream next (cs.flatMap bytes) :=
  ⟨cs,sends.written writable,rfl,fun _ _ => run_carried⟩

/-- A string that is written with `fputs`, or with `fwrite` and its length, comes out on the line with a carriage
return before each newline. -/
theorem text_line (u : Transmitter) (stream : Stream) (writable : stream.flags &&& SWR ≠ 0) (string : StringAt m a text)
    (enough : text.length < limit) :
    (∃ next, fputs m limit a stream = some next ∧ Puts u stream next (text.flatMap crlf)) ∧
      Puts u stream (fwrite m stream a text.length).1 (text.flatMap crlf) := by
  constructor
  · obtain ⟨next,call,sends⟩ := fputs_sends stream string enough
    have puts := sends_puts u writable sends
    simp only [List.flatMap_map,bytes_ofChar] at puts
    exact ⟨next,call,puts⟩
  · have puts := sends_puts u writable (writeLoop_sends a 0 stream string)
    simp only [List.flatMap_map,bytes_unsigned] at puts
    rw [fwrite,if_pos writable]
    exact puts

/-- The port after a reset. -/
def quiet : Transmitter := ⟨none,none,false,[]⟩

theorem text_line_newline : (∃ next, fputs (page [104,105,10]).m 4 0 terminal = some next ∧ Puts quiet terminal next [104,105,13,10]) ∧
    Puts quiet terminal (fwrite (page [104,105,10]).m terminal 0 3).1 [104,105,13,10] := by
  have string : StringAt (page [104,105,10]).m 0 [104,105,10] := by decide
  exact text_line quiet terminal (by decide) string (by decide)

/-- What a format prints comes out on the line. -/
theorem printf_line {Double : Type} {e : Machine Double} {used more : List (Arg Double)} {out : List Int} (u : Transmitter)
    (stream : Stream) (writable : stream.flags &&& SWR ≠ 0) (string : StringAt e.m a text) (formats : Formats e text used out)
    (full : complete text = true) :
    ∃ limit st rc, vfprintf e limit stream a (used ++ more) = some (st,rc) ∧ Puts u stream st.stream (out.flatMap bytes) := by
  obtain ⟨bound,scans⟩ := scan_formats formats full more
  let limit := max bound (text.length + 1)
  obtain ⟨final,scanned,kept⟩ := scans limit limit ⟨a,0,used ++ more,stream,[]⟩ (by omega) (by omega) string rfl
  refine ⟨limit,final,final.stream.length.toInt,?_,sends_puts u writable kept.sends⟩
  rw [vfprintf,scanned]
  rfl

theorem printf_line_newline : ∃ limit st rc, vfprintf (page [37,117,10]) limit terminal 0 ([.word 42] ++ []) = some (st,rc) ∧
    Puts quiet terminal st.stream [52,50,13,10] := by
  have string : StringAt (page [37,117,10]).m 0 [37,117,10] := by decide
  have formats : Formats (page [37,117,10]) [37,117,10] ([.word 42] ++ [])
      ((Clib.ConvertNum.representation ((42 : BitVec 16).setWidth 32) 10 false false).map ofChar ++ [ofChar 10]) :=
    .directive (.u 42) (.ordinary (by decide) .done)
  have number : (Clib.ConvertNum.representation ((42 : BitVec 16).setWidth 32) 10 false false).map ofChar = [52,50] := by decide
  rw [number] at formats
  exact printf_line quiet terminal (by decide) string formats (by decide)

end BermudaOS.Dev.UsartLine
