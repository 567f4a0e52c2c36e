import BermudaOS.Clib.ConvertNum

/-! Formatted printing, `lib/c/stdio/vfprintf.c`. Each time a character of the format is
read, its address is written down. -/
namespace BermudaOS.Clib.Printf
open Lib.ByteMemory Strings Streams ConvertNum

/-- An argument: a word, which an `unsigned int` and a pointer are, or a `double`. -/
inductive Arg (Double : Type) where
  | word (w : BitVec 16)
  | double (d : Double)

structure Machine (Double : Type) where
  m : Memory
  /-- What is in the buffer of `convert_to_num` before. -/
  garbage : Memory
  /-- The characters that `print_flt` gives to `fputc`. -/
  printFlt : Double → List Int

inductive Directive where
  | i
  | u
  | x
  | f
  | p
  | X
  | c
  | s
  | percent
  /-- None that the `switch` knows. -/
  | default
  deriving DecidableEq

def directiveOf (c : UInt8) : Directive :=
  if c = ascii 'i' then .i
  else if c = ascii 'u' then .u
  else if c = ascii 'x' then .x
  else if c = ascii 'f' then .f
  else if c = ascii 'p' then .p
  else if c = ascii 'X' then .X
  else if c = ascii 'c' then .c
  else if c = ascii 's' then .s
  else if c = ascii '%' then .percent
  else .default

variable {Double : Type}

/-- `va_arg(ap, unsigned int)`, defined where the next argument is a word. -/
def vaWord : List (Arg Double) → Option (BitVec 16 × List (Arg Double))
  | .word w::ap => some (w,ap)
  | _ => none

def vaDouble : List (Arg Double) → Option (Double × List (Arg Double))
  | .double d::ap => some (d,ap)
  | _ => none

def printNum (e : Machine Double) (base : Nat) (sign caps : Bool) (ap : List (Arg Double)) (stream : Stream) :
    Option (List (Arg Double) × Stream) := do
  let (w,ap) ← vaWord ap
  let (stream,_) ← convertToNum e.garbage (w.setWidth 32) base sign caps stream
  return (ap,stream)

/-- The `switch` of `vfprintf`; strings have less than `limit` characters. -/
def print (e : Machine Double) (limit : Nat) (ap : List (Arg Double)) (stream : Stream) :
    Directive → Option (List (Arg Double) × Stream)
  | .i => printNum e 10 true false ap stream
  | .u => printNum e 10 false false ap stream
  | .x => printNum e 16 false false ap stream
  | .f => do
    let (d,ap) ← vaDouble ap
    return (ap,(e.printFlt d).foldl (fun stream c => (fputc c stream).1) stream)
  | .p => printNum e 16 false true ap stream
  | .X => printNum e 16 false true ap stream
  | .c => do
    let (w,ap) ← vaWord ap
    return (ap,(putc (ofChar (UInt8.ofNat w.toNat)) stream).1)
  | .s => do
    let (w,ap) ← vaWord ap
    let stream ← fputs e.m limit w.toNat stream
    return (ap,stream)
  | .percent => some (ap,(putc (ofChar (ascii '%')) stream).1)
  | .default => some (ap,stream)

structure State (Double : Type) where
  fmt : Nat
  i : Nat
  ap : List (Arg Double)
  stream : Stream
  reads : List Nat

def State.look (st : State Double) : State Double := {st with reads := st.reads ++ [st.fmt + st.i]}

/-- The loop of `vfprintf`. -/
def scan (e : Machine Double) (limit : Nat) : Nat → State Double → Option (State Double)
  | 0,_ => none
  | n+1,st =>
    let c := e.m (st.fmt + st.i)
    let st := st.look
    if c = 0 then some st
    else if c ≠ ascii '%' then scan e limit n {st with stream := (putc (ofChar c) st.stream).1,i := st.i + 1}
    else do
      let st := {st with fmt := st.fmt + 1}
      let d := e.m (st.fmt + st.i)
      let st := st.look
      let (ap,stream) ← print e limit st.ap st.stream (directiveOf d)
      scan e limit n {st with ap := ap,stream := stream,i := st.i + 1}

/-- Returns the length of the stream too. -/
def vfprintf (e : Machine Double) (limit : Nat) (stream : Stream) (fmt : Nat) (ap : List (Arg Double)) :
    Option (State Double × Int) := do
  let st ← scan e limit limit ⟨fmt,0,ap,stream,[]⟩
  return (st,st.stream.length.toInt)

/-- What a directive prints of the arguments that it takes. -/
inductive Text (e : Machine Double) : Directive → List (Arg Double) → List Int → Prop where
  | i (w) : Text e .i [.word w] ((representation (w.setWidth 32) 10 true false).map ofChar)
  | u (w) : Text e .u [.word w] ((representation (w.setWidth 32) 10 false false).map ofChar)
  | x (w) : Text e .x [.word w] ((representation (w.setWidth 32) 16 false false).map ofChar)
  | f (d) : Text e .f [.double d] (e.printFlt d)
  | p (w) : Text e .p [.word w] ((representation (w.setWidth 32) 16 false true).map ofChar)
  | X (w) : Text e .X [.word w] ((representation (w.setWidth 32) 16 false true).map ofChar)
  | c (w) : Text e .c [.word w] [ofChar (UInt8.ofNat w.toNat)]
  | s (w s) (string : StringAt e.m w.toNat s) : Text e .s [.word w] (s.map ofChar)
  | percent : Text e .percent [] [ofChar (ascii '%')]
  | default : Text e .default [] []

/-- The arguments match the format, and what is printed for the two. A `%` at the end of
the format asks for nothing. -/
inductive Formats (e : Machine Double) : List UInt8 → List (Arg Double) → List Int → Prop where
  | done : Formats e [] [] []
  | ordinary {c s args out} (ordinary : c ≠ ascii '%') (rest : Formats e s args out) : Formats e (c::s) args (ofChar c::out)
  | directive {d s used args text out} (prints : Text e (directiveOf d) used text) (rest : Formats e s args out) :
    Formats e (ascii '%'::d::s) (used ++ args) (text ++ out)
  | cut : Formats e [ascii '%'] [] []

/-- Each `%` that begins a directive has a character behind it. -/
def complete : List UInt8 → Bool
  | [] => true
  | [c] => c ≠ ascii '%'
  | c::d::s => if c = ascii '%' then complete s else complete (d::s)

def takes (d : Directive) : Bool := d ≠ .percent && d ≠ .default

/-- The directives of a format that are known and not `%%`. -/
def arguments : List UInt8 → Nat
  | [] => 0
  | [_] => 0
  | c::d::s => if c = ascii '%' then (if takes (directiveOf d) then 1 else 0) + arguments s else arguments (d::s)

/-- The format is printed as it says, without a look behind its end. -/
def Printed (e : Machine Double) (stream : Stream) (a : Nat) (s : List UInt8) (ap : List (Arg Double)) (out : List Int) : Prop :=
  ∃ limit st rc,vfprintf e limit stream a ap = some (st,rc) ∧ (∀ x ∈ st.reads,a ≤ x ∧ x ≤ a + s.length) ∧
    st.ap = ap.drop (arguments s) ∧ Sends stream out st.stream

variable {e : Machine Double} {stream : Stream} {ap used more : List (Arg Double)} {out : List Int} {s : List UInt8}
  {d : Directive} {st final : State Double} {limit n a : Nat}

theorem printNum_sends {base : Nat} (known : base = 10 ∨ base = 16) (sign caps : Bool) (w : BitVec 16)
    (more : List (Arg Double)) (stream : Stream) :
    ∃ next,printNum e base sign caps (.word w::more) stream = some (more,next) ∧
      Sends stream ((representation (w.setWidth 32) base sign caps).map ofChar) next := by
  have word : (w.setWidth 32).toNat ≤ 2^31 := by
    have := w.isLt
    rw [BitVec.toNat_setWidth]
    omega
  obtain ⟨next,eq,sends⟩ := convertToNum_sends (w.setWidth 32) sign caps known e.garbage stream
  rw [(printed_representation known).mpr fun _ => word] at sends
  exact ⟨next,by simp [printNum,vaWord,eq],sends⟩

/-- A directive takes its arguments and prints its text, given enough steps for its string. -/
theorem print_text (prints : Text e d used out) (more : List (Arg Double)) :
    ∃ bound,∀ limit stream,bound ≤ limit → ∃ next,print e limit (used ++ more) stream d = some (more,next) ∧
      Sends stream out next := by
  cases prints with
  | i w => exact ⟨0,fun _ stream _ => printNum_sends (.inl rfl) true false w more stream⟩
  | u w => exact ⟨0,fun _ stream _ => printNum_sends (.inl rfl) false false w more stream⟩
  | x w => exact ⟨0,fun _ stream _ => printNum_sends (.inr rfl) false false w more stream⟩
  | f d => exact ⟨0,fun _ stream _ => ⟨_,rfl,foldl_sends _ stream⟩⟩
  | p w => exact ⟨0,fun _ stream _ => printNum_sends (.inr rfl) false true w more stream⟩
  | X w => exact ⟨0,fun _ stream _ => printNum_sends (.inr rfl) false true w more stream⟩
  | c w => exact ⟨0,fun _ stream _ => ⟨_,rfl,putc_sends _ stream⟩⟩
  | s w s string =>
    refine ⟨s.length + 1,fun limit stream enough => ?_⟩
    obtain ⟨next,eq,sends⟩ := fputs_sends stream string (Nat.lt_of_succ_le enough)
    exact ⟨next,by simp [print,vaWord,eq],sends⟩
  | percent => exact ⟨0,fun _ stream _ => ⟨_,rfl,putc_sends _ stream⟩⟩
  | default => exact ⟨0,fun _ stream _ => ⟨_,rfl,.nothing stream⟩⟩

theorem text_takes (prints : Text e d used out) : used.length = if takes d then 1 else 0 := by
  cases prints <;> rfl

theorem complete_ordinary {c : UInt8} (ordinary : c ≠ ascii '%') (s : List UInt8) : complete (c::s) = complete s := by
  cases s with
  | nil => exact decide_eq_true ordinary
  | cons d s => exact if_neg ordinary

theorem arguments_ordinary {c : UInt8} (ordinary : c ≠ ascii '%') (s : List UInt8) : arguments (c::s) = arguments s := by
  cases s with
  | nil => rfl
  | cons d s => exact if_neg ordinary

theorem formats_arguments (formats : Formats e s used out) : used.length = arguments s := by
  induction formats with
  | done => rfl
  | ordinary ordinary _ ih => rw [arguments_ordinary ordinary,ih]
  | directive prints _ ih => rw [List.length_append,text_takes prints,ih,arguments,if_pos rfl]
  | cut => rfl

def State.ordinary (st : State Double) (c : UInt8) : State Double :=
  {st.look with stream := (putc (ofChar c) st.stream).1,i := st.i + 1}

def State.directive (st : State Double) (ap : List (Arg Double)) (stream : Stream) : State Double :=
  ⟨st.fmt + 1,st.i + 1,ap,stream,st.reads ++ [st.fmt + st.i] ++ [st.fmt + 1 + st.i]⟩

theorem scan_end (zero : e.m (st.fmt + st.i) = 0) : scan e limit (n + 1) st = some st.look := if_pos zero

theorem scan_ordinary {c : UInt8} (char : e.m (st.fmt + st.i) = c) (nonzero : c ≠ 0) (ordinary : c ≠ ascii '%') :
    scan e limit (n + 1) st = scan e limit n (st.ordinary c) := by
  subst char
  exact (if_neg nonzero).trans (if_pos ordinary)

theorem scan_directive {d : UInt8} (char : e.m (st.fmt + st.i) = ascii '%') (next : e.m (st.fmt + 1 + st.i) = d) :
    scan e limit (n + 1) st =
      (print e limit st.ap st.stream (directiveOf d)).bind fun r => scan e limit n (st.directive r.1 r.2) := by
  subst next
  rw [scan,if_neg (by rw [char]; decide),if_neg (by rw [char]; exact fun h => h rfl)]
  rfl

/-- What a scan of `len` characters prints, leaves of the arguments and looks at. -/
structure Scanned (st : State Double) (len : Nat) (more : List (Arg Double)) (out : List Int) (final : State Double) : Prop where
  ap : final.ap = more
  sends : Sends st.stream out final.stream
  reads : ∃ log,final.reads = st.reads ++ log ∧ ∀ x ∈ log,st.fmt + st.i ≤ x ∧ x ≤ st.fmt + st.i + len

theorem Scanned.ordinary {c : UInt8} {len : Nat} (rest : Scanned (st.ordinary c) len more out final) :
    Scanned st (len + 1) more (ofChar c::out) final := by
  obtain ⟨log,eq,inside⟩ := rest.reads
  refine ⟨rest.ap,(putc_sends (ofChar c) st.stream).append rest.sends,(st.fmt + st.i)::log,?_,fun x mem => ?_⟩
  · rw [eq]
    exact List.append_assoc st.reads [_] log
  · rcases List.mem_cons.mp mem with rfl | mem
    · omega
    · have position : st.fmt + (st.i + 1) ≤ x ∧ x ≤ st.fmt + (st.i + 1) + len := inside x mem
      omega

theorem Scanned.directive {len : Nat} {text : List Int} {stream : Stream} {ap : List (Arg Double)}
    (prints : Sends st.stream text stream) (rest : Scanned (st.directive ap stream) len more out final) :
    Scanned st (len + 2) more (text ++ out) final := by
  obtain ⟨log,eq,inside⟩ := rest.reads
  refine ⟨rest.ap,prints.append rest.sends,(st.fmt + st.i)::(st.fmt + 1 + st.i)::log,?_,fun x mem => ?_⟩
  · rw [eq]
    exact (List.append_assoc (st.reads ++ [_]) [_] log).trans (List.append_assoc st.reads [_] _)
  · rcases List.mem_cons.mp mem with rfl | mem
    · omega
    rcases List.mem_cons.mp mem with rfl | mem
    · omega
    · have position : st.fmt + 1 + (st.i + 1) ≤ x ∧ x ≤ st.fmt + 1 + (st.i + 1) + len := inside x mem
      omega

/-- A complete format is printed with enough steps: the position is the sum of `fmt` and `i`. -/
theorem scan_formats (formats : Formats e s used out) (whole : complete s = true) (more : List (Arg Double)) :
    ∃ bound,∀ limit n st,bound ≤ limit → s.length < n → StringAt e.m (st.fmt + st.i) s → st.ap = used ++ more →
      ∃ final,scan e limit n st = some final ∧ Scanned st s.length more out final := by
  induction formats with
  | done =>
    refine ⟨0,fun limit n st _ enough string args => ?_⟩
    obtain ⟨n,rfl⟩ := Nat.exists_eq_add_one_of_ne_zero (Nat.ne_zero_of_lt enough)
    refine ⟨_,scan_end string,args,.nothing _,_,rfl,fun x mem => ?_⟩
    rw [List.mem_singleton.mp mem]
    exact ⟨Nat.le_refl _,Nat.le_refl _⟩
  | @ordinary c s args out ordinary _ ih =>
    rw [complete_ordinary ordinary] at whole
    obtain ⟨bound,scans⟩ := ih whole
    refine ⟨bound,fun limit n st big enough string taken => ?_⟩
    obtain ⟨n,rfl⟩ := Nat.exists_eq_add_one_of_ne_zero (Nat.ne_zero_of_lt enough)
    obtain ⟨char,nonzero,rest⟩ := string
    obtain ⟨final,eq,scanned⟩ := scans limit n (st.ordinary c) big (Nat.lt_of_succ_lt_succ enough) rest taken
    exact ⟨final,(scan_ordinary char nonzero ordinary).trans eq,scanned.ordinary⟩
  | @directive d s used args text out prints _ ih =>
    rw [complete,if_pos rfl] at whole
    obtain ⟨bound,scans⟩ := ih whole
    obtain ⟨steps,printed⟩ := print_text prints (args ++ more)
    refine ⟨max bound steps,fun limit n st big enough string taken => ?_⟩
    obtain ⟨n,rfl⟩ := Nat.exists_eq_add_one_of_ne_zero (Nat.ne_zero_of_lt enough)
    obtain ⟨char,-,next,-,rest⟩ := string
    obtain ⟨stream,eq,sends⟩ := printed limit st.stream (by omega)
    have position : st.fmt + st.i + 1 = st.fmt + 1 + st.i := by omega
    rw [position] at next rest
    obtain ⟨final,scan,scanned⟩ := scans limit n (st.directive (args ++ more) stream) (by omega)
      (by simp only [List.length_cons] at enough; omega) rest rfl
    refine ⟨final,?_,scanned.directive sends⟩
    rw [scan_directive char next,taken,List.append_assoc,eq]
    exact scan
  | cut => exact absurd whole (by decide)

theorem scan_cases (scanned : scan e limit (n + 1) st = some final) :
    final = st.look ∨ (∃ c,scan e limit n (st.ordinary c) = some final) ∨
    ∃ ap stream,scan e limit n (st.directive ap stream) = some final := by
  by_cases zero : e.m (st.fmt + st.i) = 0
  · rw [scan_end zero] at scanned
    exact .inl (Option.some.inj scanned).symm
  by_cases percent : e.m (st.fmt + st.i) = ascii '%'
  · rw [scan_directive percent rfl] at scanned
    obtain ⟨r,-,rest⟩ := Option.bind_eq_some_iff.mp scanned
    exact .inr (.inr ⟨_,_,rest⟩)
  · rw [scan_ordinary rfl zero percent] at scanned
    exact .inr (.inl ⟨_,scanned⟩)

theorem scan_looks (scanned : scan e limit n st = some final) :
    st.fmt + st.i ∈ final.reads ∧ ∀ x ∈ st.reads,x ∈ final.reads := by
  induction n generalizing st with
  | zero => cases scanned
  | succ n ih =>
    rcases scan_cases scanned with rfl | ⟨c,rest⟩ | ⟨ap,stream,rest⟩
    · exact ⟨List.mem_append_right _ (List.mem_singleton_self _),fun x mem => List.mem_append_left _ mem⟩
    · have kept := (ih rest).2
      exact ⟨kept _ (List.mem_append_right _ (List.mem_singleton_self _)),fun x mem => kept x (List.mem_append_left _ mem)⟩
    · have kept := (ih rest).2
      refine ⟨kept _ (List.mem_append_left _ (List.mem_append_right _ (List.mem_singleton_self _))),fun x mem => ?_⟩
      exact kept x (List.mem_append_left _ (List.mem_append_left _ mem))

/-- Behind a `%` at the end of the format, the scan goes on behind the end. -/
theorem scan_strays (st : State Double) (string : StringAt e.m (st.fmt + st.i) s) (cut : complete s = false)
    (scanned : scan e limit n st = some final) : st.fmt + st.i + s.length + 1 ∈ final.reads := by
  induction s using complete.induct generalizing st n with
  | case1 => exact absurd cut (by decide)
  | case2 c =>
    obtain rfl : c = ascii '%' := by simpa [complete] using cut
    obtain ⟨char,-,last⟩ := string
    cases n with
    | zero => cases scanned
    | succ n =>
      rw [scan_directive char rfl] at scanned
      obtain ⟨r,-,rest⟩ := Option.bind_eq_some_iff.mp scanned
      have looked : st.fmt + 1 + (st.i + 1) ∈ final.reads := (scan_looks rest).1
      rwa [show st.fmt + 1 + (st.i + 1) = st.fmt + st.i + [ascii '%'].length + 1 by simp only [List.length_singleton]; omega]
        at looked
  | case3 d s ih =>
    rw [complete,if_pos rfl] at cut
    obtain ⟨char,-,next,-,rest⟩ := string
    cases n with
    | zero => cases scanned
    | succ n =>
      rw [scan_directive char rfl] at scanned
      obtain ⟨r,-,scanned⟩ := Option.bind_eq_some_iff.mp scanned
      have position : st.fmt + st.i + 1 + 1 = st.fmt + 1 + (st.i + 1) := by omega
      rw [position] at rest
      have looked := ih _ rest cut scanned
      rwa [show (st.directive r.1 r.2).fmt + (st.directive r.1 r.2).i + s.length + 1 =
        st.fmt + st.i + (ascii '%'::d::s).length + 1 by simp only [State.directive,List.length_cons]; omega] at looked
  | case4 c d s ordinary ih =>
    rw [complete_ordinary ordinary] at cut
    obtain ⟨char,nonzero,rest⟩ := string
    cases n with
    | zero => cases scanned
    | succ n =>
      rw [scan_ordinary char nonzero ordinary] at scanned
      have looked := ih _ rest cut scanned
      rwa [show (st.ordinary c).fmt + (st.ordinary c).i + (d::s).length + 1 = st.fmt + st.i + (c::d::s).length + 1 by
        simp only [State.ordinary,State.look,List.length_cons]; omega] at looked

theorem cut_unprinted (string : StringAt e.m a s) (cut : complete s = false) : ¬ Printed e stream a s ap out := by
  rintro ⟨limit,final,rc,eq,inside,-,-⟩
  obtain ⟨st,scanned,same⟩ := Option.bind_eq_some_iff.mp eq
  obtain ⟨rfl,-⟩ : st = final ∧ _ := by simpa using same
  have strayed := scan_strays ⟨a,0,ap,stream,[]⟩ string cut scanned
  have position : a + 0 + s.length + 1 ≤ a + s.length := (inside _ strayed).2
  omega

theorem vfprintf_prints (string : StringAt e.m a s) (formats : Formats e s used out) :
    Printed e stream a s (used ++ more) out ↔ complete s = true := by
  constructor
  · intro printed
    by_contra cut
    exact cut_unprinted string (Bool.eq_false_of_not_eq_true cut) printed
  · intro whole
    obtain ⟨bound,scans⟩ := scan_formats formats whole more
    let limit := max bound (s.length + 1)
    obtain ⟨final,eq,scanned⟩ := scans limit limit ⟨a,0,used ++ more,stream,[]⟩ (by omega) (by omega) string rfl
    obtain ⟨log,reads,inside⟩ := scanned.reads
    refine ⟨limit,final,_,by rw [vfprintf,eq]; rfl,?_,?_,scanned.sends⟩
    · rw [reads]
      exact inside
    · rw [scanned.ap,← formats_arguments formats,List.drop_left]

/-- A format at address 0, for a machine that prints no floating point numbers. -/
def page (s : List UInt8) : Machine Unit := ⟨fun x => s.getD x 0,fun _ => 0,fun _ => []⟩

def terminal : Stream := ⟨SWR,0,[],fun _ c => c⟩

/-- `"n=%u%%"` with the argument 42. -/
theorem vfprintf_prints_percentage :
    let s := ['n','=','%','u','%','%'].map ascii
    let out := ['n','=','4','2','%'].map (ofChar ∘ ascii)
    StringAt (page s).m 0 s ∧ Formats (page s) s [.word 42] out ∧
    (Printed (page s) terminal 0 s ([.word 42] ++ []) out ↔ complete s = true) := by
  intro s out
  have string : StringAt (page s).m 0 s := by decide
  have number : (representation ((42 : BitVec 16).setWidth 32) 10 false false).map ofChar = ['4','2'].map (ofChar ∘ ascii) := by
    decide
  have directives : Formats (page s) (['%','u','%','%'].map ascii) ([.word 42] ++ ([] ++ []))
      ((representation ((42 : BitVec 16).setWidth 32) 10 false false).map ofChar ++ ([ofChar (ascii '%')] ++ [])) :=
    .directive (.u 42) (.directive .percent .done)
  rw [number] at directives
  have formats : Formats (page s) s [.word 42] out := .ordinary (by decide) (.ordinary (by decide) directives)
  exact ⟨string,formats,vfprintf_prints string formats⟩

/-- `"5%"` ends in a `%`, behind which the end of the string is skipped. -/
theorem vfprintf_strays :
    let s := ['5','%'].map ascii
    StringAt (page s).m 0 s ∧ Formats (page s) s [] [ofChar (ascii '5')] ∧
    ¬ Printed (page s) terminal 0 s [] [ofChar (ascii '5')] := by
  intro s
  have string : StringAt (page s).m 0 s := by decide
  exact ⟨string,.ordinary (by decide) .cut,cut_unprinted string (by decide)⟩

end BermudaOS.Clib.Printf
