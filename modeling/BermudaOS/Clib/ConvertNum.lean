import BermudaOS.Clib.Streams
import BermudaOS.Lib.Numerals

/-! Printing of numbers, `lib/c/stdio/convert.c`. The digits are stored backwards into a
buffer of the function, which holds them as a string that grows at its front. -/
namespace BermudaOS.Clib.ConvertNum
open Lib.ByteMemory Lib.Numerals Strings Streams

def BUFF : Nat := 16

structure Buffer where
  bytes : Memory
  cp : Nat
  /-- A character was stored before the buffer. -/
  strayed : Bool

/-- `*--cp = c`. -/
def Buffer.push (b : Buffer) (c : UInt8) : Buffer :=
  if b.cp = 0 then {b with strayed := true}
  else {b with bytes := Function.update b.bytes (b.cp - 1) c,cp := b.cp - 1}

def ascii (c : Char) : UInt8 := c.toUInt8

def digx (caps : Bool) : List Char :=
  if caps then ['0','1','2','3','4','5','6','7','8','9','A','B','C','D','E','F']
  else ['0','1','2','3','4','5','6','7','8','9','a','b','c','d','e','f']

/-- A loop that stores the last digit of `num` and goes on with the rest of it. -/
def digitWalk (digit : BitVec 32 → UInt8) (rest : BitVec 32 → BitVec 32) : Nat → BitVec 32 → Buffer → Option Buffer
  | 0,_,_ => none
  | n+1,num,b =>
    let b := b.push (digit num)
    let num := rest num
    if num = 0 then some b else digitWalk digit rest n num b

def hexWalk (caps : Bool) : Nat → BitVec 32 → Buffer → Option Buffer :=
  digitWalk (fun num => ascii ((digx caps).getD (num &&& 0x0F).toNat '0')) (· >>> 4)

def decDigit (num : BitVec 32) : UInt8 := UInt8.ofNat num.toNat + ascii '0'

def decWalk : Nat → BitVec 32 → Buffer → Option Buffer := digitWalk (fun num => decDigit (num % 10)) (· / 10)

/-- The digits of `num` in the buffer. Each turn of a loop takes one bit off at least. -/
def digits (base : Nat) (caps : Bool) (num : BitVec 32) (b : Buffer) : Option Buffer :=
  if base = 16 then hexWalk caps 32 num b
  else if base = 10 then
    if num.toNat < 10 then some (b.push (decDigit num)) else decWalk 32 num b
  else some b

/-- Returns the stream and whether the buffer was too small; `garbage` is in it before. -/
def convertToNum (garbage : Memory) (num : BitVec 32) (base : Nat) (sign caps : Bool) (stream : Stream) :
    Option (Stream × Bool) :=
  if num = 0 then some ((putc (ofChar (ascii '0')) stream).1,false)
  else do
    let stream := if num.toInt < 0 ∧ sign then (putc (ofChar (ascii '-')) stream).1 else stream
    let b ← digits base caps num ⟨Function.update garbage (BUFF - 1) 0,BUFF - 1,false⟩
    let stream ← fputs b.bytes BUFF b.cp stream
    return (stream,b.strayed)

def glyph (caps : Bool) (d : Nat) : UInt8 :=
  if d < 10 then ascii '0' + UInt8.ofNat d else ascii (if caps then 'A' else 'a') + UInt8.ofNat (d - 10)

/-- What a number is printed as: read as a signed one, it has a minus sign and its magnitude. -/
def representation (num : BitVec 32) (base : Nat) (sign caps : Bool) : List UInt8 :=
  if sign then
    (if num.toInt < 0 then [ascii '-'] else []) ++ numeral (glyph caps) base num.toInt.natAbs
  else numeral (glyph caps) base num.toNat

/-- The stream gets exactly the representation, and the digits fit into the buffer. -/
def Exact (num : BitVec 32) (base : Nat) (sign caps : Bool) : Prop :=
  ∀ garbage stream,∃ next,convertToNum garbage num base sign caps stream = some (next,false) ∧
    Sends stream ((representation num base sign caps).map ofChar) next

variable {garbage : Memory} {num : BitVec 32} {base : Nat} {sign caps : Bool} {stream : Stream} {b : Buffer}
  {s : List UInt8} {digit : BitVec 32 → UInt8} {rest : BitVec 32 → BitVec 32}

/-- The buffer holds the string, in front of which there is room. -/
structure Holds (b : Buffer) (s : List UInt8) : Prop where
  string : StringAt b.bytes b.cp s
  room : b.cp + s.length = BUFF - 1
  inside : b.strayed = false

theorem empty_holds (garbage : Memory) : Holds ⟨Function.update garbage (BUFF - 1) 0,BUFF - 1,false⟩ [] where
  string := show Function.update garbage (BUFF - 1) 0 (BUFF - 1) = 0 from Function.update_self _ _ _
  room := rfl
  inside := rfl

theorem push_holds {c : UInt8} (holds : Holds b s) (nonzero : c ≠ 0) (room : s.length < BUFF - 1) :
    Holds (b.push c) (c::s) := by
  have above : 0 < b.cp := by
    have := holds.room
    omega
  rw [Buffer.push,if_neg above.ne']
  refine ⟨⟨Function.update_self _ _ _,nonzero,?_⟩,?_,holds.inside⟩
  · rw [show b.cp - 1 + 1 = b.cp by omega]
    exact stringAt_congr holds.string fun x low _ => Function.update_of_ne (by omega) _ _
  · have := holds.room
    simp only [List.length_cons]
    omega

theorem glyph_ne_zero : ∀ caps : Bool,∀ d < 16,glyph caps d ≠ 0 := by decide

theorem glyph_inj : ∀ caps : Bool,∀ i < 16,∀ j < 16,glyph caps i = glyph caps j → i = j := by decide

theorem digx_glyph : ∀ caps : Bool,∀ d < 16,ascii ((digx caps).getD d '0') = glyph caps d := by decide

theorem ascii_glyph : ∀ caps : Bool,∀ d < 10,UInt8.ofNat d + ascii '0' = glyph caps d := by decide

structure Peels (caps : Bool) (base : Nat) (digit : BitVec 32 → UInt8) (rest : BitVec 32 → BitVec 32) : Prop where
  range : 1 < base ∧ base ≤ 16
  digit : ∀ num,digit num = glyph caps (num.toNat % base)
  rest : ∀ num,(rest num).toNat = num.toNat / base

theorem Peels.push (peels : Peels caps base digit rest) (num : BitVec 32) (holds : Holds b s) (room : s.length < BUFF - 1) :
    Holds (b.push (digit num)) (glyph caps (num.toNat % base)::s) := by
  obtain ⟨low,high⟩ := peels.range
  have below : num.toNat % base < base := Nat.mod_lt _ (by omega)
  rw [peels.digit]
  exact push_holds holds (glyph_ne_zero caps _ (by omega)) room

theorem Peels.done (peels : Peels caps base digit rest) : rest num = 0 ↔ num.toNat < base := by
  have positive : 0 < base := Nat.zero_lt_of_lt peels.range.1
  rw [← Nat.div_eq_zero_iff_lt positive,← peels.rest num]
  exact BitVec.toNat_inj.symm

/-- The loop stores the numeral of `num` in front of the string: the numeral of what is left
and what it has stored are always the numeral of the number it started with. -/
theorem digitWalk_numeral (peels : Peels caps base digit rest) {k n : Nat} (short : num.toNat < base^(k + 1))
    (holds : Holds b s) (room : s.length + k < BUFF - 1) (enough : k < n) :
    ∃ next,digitWalk digit rest n num b = some next ∧ Holds next (numeral (glyph caps) base num.toNat ++ s) := by
  induction k generalizing num b s n with
  | zero =>
    obtain ⟨n,rfl⟩ := Nat.exists_eq_add_one_of_ne_zero (Nat.ne_zero_of_lt enough)
    rw [Nat.zero_add,pow_one] at short
    refine ⟨_,if_pos (peels.done.mpr short),?_⟩
    have pushed := peels.push num holds room
    rwa [Nat.mod_eq_of_lt short,← List.singleton_append,← numeral_small short] at pushed
  | succ k ih =>
    obtain ⟨n,rfl⟩ := Nat.exists_eq_add_one_of_ne_zero (Nat.ne_zero_of_lt enough)
    have pushed := peels.push num holds (by omega)
    by_cases small : num.toNat < base
    · refine ⟨_,if_pos (peels.done.mpr small),?_⟩
      rwa [Nat.mod_eq_of_lt small,← List.singleton_append,← numeral_small small] at pushed
    · have shorter : (rest num).toNat < base^(k + 1) := by
        rw [peels.rest]
        exact Nat.div_lt_of_lt_mul (by rwa [Nat.mul_comm,← pow_succ])
      obtain ⟨next,eq,holds⟩ := ih shorter pushed (by rw [List.length_cons]; omega) (Nat.lt_of_succ_lt_succ enough)
      refine ⟨next,(if_neg fun last => small (peels.done.mp last)).trans eq,?_⟩
      rwa [peels.rest,← List.singleton_append,← List.append_assoc,
        ← numeral_split peels.range.1 (Nat.not_lt.mp small)] at holds

theorem peels_hex (caps : Bool) :
    Peels caps 16 (fun num => ascii ((digx caps).getD (num &&& 0x0F).toNat '0')) (· >>> 4) where
  range := by decide
  digit num := by
    have low : (num &&& 0x0F).toNat = num.toNat % 16 := by
      rw [BitVec.toNat_and]
      exact Nat.and_two_pow_sub_one_eq_mod num.toNat 4
    rw [low]
    exact digx_glyph caps _ (Nat.mod_lt _ (by decide))
  rest num := by rw [BitVec.toNat_ushiftRight,Nat.shiftRight_eq_div_pow]

theorem peels_dec (caps : Bool) : Peels caps 10 (fun num => decDigit (num % 10)) (· / 10) where
  range := by decide
  digit num := ascii_glyph caps _ (Nat.mod_lt _ (by decide))
  rest num := BitVec.toNat_udiv

theorem digits_numeral (num : BitVec 32) (caps : Bool) (known : base = 10 ∨ base = 16) (holds : Holds b []) :
    ∃ next,digits base caps num b = some next ∧ Holds next (numeral (glyph caps) base num.toNat) := by
  have word : num.toNat < 2^32 := num.isLt
  rw [← List.append_nil (numeral _ _ _)]
  rcases known with rfl | rfl
  · by_cases small : num.toNat < 10
    · have digit : decDigit num = glyph caps num.toNat := ascii_glyph caps _ small
      refine ⟨b.push (decDigit num),by rw [digits,if_neg (by decide),if_pos rfl,if_pos small],?_⟩
      rw [numeral_small small,List.singleton_append,digit]
      exact push_holds holds (glyph_ne_zero caps _ (by omega)) (by decide)
    · obtain ⟨next,eq,numeral⟩ :=
        digitWalk_numeral (peels_dec caps) (k := 9) (n := 32) (by omega) holds (by decide) (by decide)
      refine ⟨next,?_,numeral⟩
      rw [digits,if_neg (by decide),if_pos rfl,if_neg small]
      exact eq
  · exact digitWalk_numeral (peels_hex caps) (k := 7) (n := 32) (by omega) holds (by decide) (by decide)

/-- The minus sign of a negative number, and the digits of the number read as an unsigned one. -/
def printed (num : BitVec 32) (base : Nat) (sign caps : Bool) : List UInt8 :=
  (if num.toInt < 0 ∧ sign then [ascii '-'] else []) ++ numeral (glyph caps) base num.toNat

theorem convertToNum_sends (num : BitVec 32) (sign caps : Bool) (known : base = 10 ∨ base = 16) (garbage : Memory)
    (stream : Stream) :
    ∃ next,convertToNum garbage num base sign caps stream = some (next,false) ∧
      Sends stream ((printed num base sign caps).map ofChar) next := by
  unfold convertToNum printed
  by_cases zero : num = 0
  · refine ⟨_,if_pos zero,?_⟩
    have letter : glyph caps 0 = ascii '0' := by
      revert caps
      decide
    rw [zero,show (0 : BitVec 32).toNat = 0 from rfl,numeral_small (by rcases known with rfl | rfl <;> decide),letter]
    exact putc_sends _ stream
  · obtain ⟨b,stored,holds⟩ := digits_numeral num caps known (empty_holds garbage)
    rw [if_neg zero,stored,List.map_append]
    have room : b.cp + (numeral (glyph caps) base num.toNat).length = 15 := holds.room
    obtain ⟨next,eq,sends⟩ := fputs_sends (n := BUFF)
      (if num.toInt < 0 ∧ sign then (putc (ofChar (ascii '-')) stream).1 else stream) holds.string
      (show (numeral (glyph caps) base num.toNat).length < 16 by omega)
    refine ⟨next,by simp only [Option.bind_eq_bind,Option.bind_some,eq,holds.inside]; rfl,Sends.append ?_ sends⟩
    split
    · exact putc_sends _ stream
    · exact .nothing stream

theorem magnitude (num : BitVec 32) : num.toInt.natAbs = num.toNat ↔ num.toNat ≤ 2^31 := by
  have word : num.toNat < 2^32 := num.isLt
  rw [BitVec.toInt_eq_toNat_cond]
  split <;> omega

theorem printed_representation (known : base = 10 ∨ base = 16) :
    printed num base sign caps = representation num base sign caps ↔ (sign = true → num.toNat ≤ 2^31) := by
  have range : 1 < base ∧ base ≤ 16 := by rcases known with rfl | rfl <;> decide
  unfold printed representation
  cases sign with
  | false => exact iff_of_true (by simp) nofun
  | true =>
    simp only [and_true,if_true,true_implies]
    rw [List.append_right_inj,← magnitude num]
    constructor
    · intro same
      refine (numeral_inj range.1 (fun i j left right => ?_) same).symm
      exact glyph_inj caps i (by omega) j (by omega)
    · intro same
      rw [same]

theorem exact_printed (known : base = 10 ∨ base = 16) :
    Exact num base sign caps ↔ printed num base sign caps = representation num base sign caps := by
  constructor
  · intro exact
    let stream : Stream := ⟨SWR,0,[],fun _ _ => 0⟩
    have writable : stream.flags &&& SWR ≠ 0 := by decide
    obtain ⟨next,eq,sends⟩ := exact (fun _ => 0) stream
    obtain ⟨other,same,prints⟩ := convertToNum_sends num sign caps known (fun _ => 0) stream
    obtain rfl : next = other := by simpa using eq.symm.trans same
    have sent := (prints.written writable).symm.trans (sends.written writable)
    exact List.map_injective_iff.mpr ofChar_injective (List.append_cancel_left sent)
  · intro same garbage stream
    rw [← same]
    exact convertToNum_sends num sign caps known garbage stream

/-- Zero is the digit 0, and no other number begins with it behind its sign. -/
theorem representation_leading (known : base = 10 ∨ base = 16) :
    (num = 0 → representation num base sign caps = [glyph caps 0]) ∧
      (num ≠ 0 → ∃ minus d rest,0 < d ∧ d < base ∧ (minus = [] ∨ minus = [ascii '-']) ∧
        representation num base sign caps = minus ++ glyph caps d::rest) := by
  have range : 1 < base := by rcases known with rfl | rfl <;> decide
  unfold representation
  constructor
  · rintro rfl
    simp [numeral_small (show 0 < base by omega)]
  · intro nonzero
    have signed : 0 < num.toInt.natAbs := Int.natAbs_pos.mpr fun zero => nonzero (BitVec.toInt_inj.mp zero)
    have unsigned : 0 < num.toNat := Nat.pos_of_ne_zero fun zero => nonzero (BitVec.eq_of_toNat_eq zero)
    cases sign with
    | true =>
      obtain ⟨d,rest,above,below,eq⟩ := numeral_leading (glyph caps) range signed
      refine ⟨_,d,rest,above,below,?_,congrArg _ eq⟩
      split
      · exact .inr rfl
      · exact .inl rfl
    | false =>
      obtain ⟨d,rest,above,below,eq⟩ := numeral_leading (glyph caps) range unsigned
      exact ⟨[],d,rest,above,below,.inl rfl,by simpa using eq⟩

theorem convertToNum_exact (known : base = 10 ∨ base = 16) :
    Exact num base sign caps ↔ (sign = true → num.toNat ≤ 2^31) :=
  (exact_printed known).trans (printed_representation known)

theorem convertToNum_exact_hex : (16 = 10 ∨ 16 = 16) ∧ (Exact 0xBEEF 16 false true ↔ (false = true → 0xBEEF ≤ 2^31)) :=
  ⟨by decide,convertToNum_exact (by decide)⟩

/-- `-1` is printed as `-4294967295`. -/
theorem convertToNum_unsigned :
    printed 0xFFFFFFFF 10 true false = ['-','4','2','9','4','9','6','7','2','9','5'].map ascii ∧
    representation 0xFFFFFFFF 10 true false = ['-','1'].map ascii ∧ ¬ Exact 0xFFFFFFFF 10 true false := by
  have sent : printed 0xFFFFFFFF 10 true false = ['-','4','2','9','4','9','6','7','2','9','5'].map ascii := by decide
  have meant : representation 0xFFFFFFFF 10 true false = ['-','1'].map ascii := by decide
  refine ⟨sent,meant,fun exact => ?_⟩
  have same := (exact_printed (.inl rfl)).mp exact
  rw [sent,meant] at same
  exact absurd same (by decide)

end BermudaOS.Clib.ConvertNum
