import Mathlib.Data.BitVec
import BermudaOS.Lib.Moves

/-! `memcpy` of `lib/c/string/memcpy.c`: bytes up to a word boundary, whole words, the bytes that are left.
It goes upwards or downwards, so the ranges may overlap. Pointers and `size_t` have 16 bits. -/
namespace BermudaOS.Clib.MemCopy
open Lib.ByteMemory Lib.Moves

/-- The size of a `word`, which is a `long`. -/
def wsize : BitVec 16 := 4

def wmask : BitVec 16 := wsize - 1

structure Cursor where
  memory : Memory
  dst : BitVec 16
  src : BitVec 16
  /-- Where words were read and written. -/
  words : List (BitVec 16)

namespace Cursor

/-- `*dst = *src`. -/
def byte (s : Cursor) : Cursor :=
  {s with memory := store8 s.memory s.dst.toNat (s.memory s.src.toNat).toNat}

/-- `*(word *)dst = *(word *)src`. -/
def word (s : Cursor) : Cursor :=
  {s with memory := store32 s.memory s.dst.toNat (load32 s.memory s.src.toNat),words := s.words ++ [s.src,s.dst]}

def up (s : Cursor) (n : BitVec 16) : Cursor := {s with dst := s.dst + n,src := s.src + n}

def down (s : Cursor) (n : BitVec 16) : Cursor := {s with dst := s.dst - n,src := s.src - n}

/-- `*dst++ = *src++`. -/
def byteUp (s : Cursor) : Cursor := s.byte.up 1

def wordUp (s : Cursor) : Cursor := s.word.up wsize

/-- `*--dst = *--src`. -/
def byteDown (s : Cursor) : Cursor := (s.down 1).byte

def wordDown (s : Cursor) : Cursor := (s.down wsize).word

end Cursor

/-- `TLOOP1`, which runs its body before it counts. -/
def tloop1 (body : Cursor → Cursor) (t : BitVec 16) (s : Cursor) : Cursor := body^[if t = 0 then 2^16 else t.toNat] s

/-- `TLOOP`. -/
def tloop (body : Cursor → Cursor) (t : BitVec 16) (s : Cursor) : Cursor := if t ≠ 0 then tloop1 body t s else s

/-- The bytes in front of the first word, with the length behind them. -/
def alignUp (s : Cursor) (length : BitVec 16) : Cursor × BitVec 16 :=
  let t := s.src
  if (t ||| s.dst) &&& wmask ≠ 0 then
    let t := if (t ^^^ s.dst) &&& wmask ≠ 0 ∨ length < wsize then length else wsize - (t &&& wmask)
    (tloop1 Cursor.byteUp t s,length - t)
  else (s,length)

def forward (s : Cursor) (length : BitVec 16) : Cursor :=
  let rest := alignUp s length
  tloop Cursor.byteUp (rest.2 &&& wmask) (tloop Cursor.wordUp (rest.2 / wsize) rest.1)

/-- The bytes behind the last word, with the length in front of them. -/
def alignDown (s : Cursor) (length : BitVec 16) : Cursor × BitVec 16 :=
  let t := s.src
  if (t ||| s.dst) &&& wmask ≠ 0 then
    let t := if (t ^^^ s.dst) &&& wmask ≠ 0 ∨ length ≤ wsize then length else t &&& wmask
    (tloop1 Cursor.byteDown t s,length - t)
  else (s,length)

def backward (s : Cursor) (length : BitVec 16) : Cursor :=
  let rest := alignDown (s.up length) length
  tloop Cursor.byteDown (rest.2 &&& wmask) (tloop Cursor.wordDown (rest.2 / wsize) rest.1)

/-- `memcpy`, with the pointer that it returns. -/
def memcpy (m : Memory) (dest src length : BitVec 16) : Cursor × BitVec 16 :=
  let s : Cursor := ⟨m,dest,src,[]⟩
  if length = 0 ∨ dest = src then (s,dest)
  else if dest < src then (forward s length,dest)
  else (backward s length,dest)

variable {m : Memory} {dst src n k : Nat} {s : Cursor} {length t : BitVec 16} {body : Cursor → Cursor}

def Aligned (words : List (BitVec 16)) : Prop := ∀ w ∈ words, w &&& wmask = 0

/-- The low `k` bytes have been copied. -/
structure Up (m : Memory) (dst src : Nat) (k : Nat) (s : Cursor) : Prop where
  memory : s.memory = moved m dst src k
  dst : s.dst = BitVec.ofNat 16 (dst + k)
  src : s.src = BitVec.ofNat 16 (src + k)
  words : Aligned s.words

/-- The high `k` of `n` bytes have been copied. -/
structure Down (m : Memory) (dst src n : Nat) (k : Nat) (s : Cursor) : Prop where
  memory : s.memory = moved m (dst + (n - k)) (src + (n - k)) k
  dst : s.dst = BitVec.ofNat 16 (dst + (n - k))
  src : s.src = BitVec.ofNat 16 (src + (n - k))
  words : Aligned s.words

theorem tloop1_iterate (positive : t ≠ 0) : tloop1 body t s = body^[t.toNat] s := by
  rw [tloop1,if_neg positive]

theorem tloop_iterate (body : Cursor → Cursor) (t : BitVec 16) (s : Cursor) : tloop body t s = body^[t.toNat] s := by
  by_cases zero : t = 0
  · subst zero
    rfl
  · rw [tloop,if_pos zero,tloop1_iterate zero]

theorem toNat_place {p : Nat} (inside : p < 2^16) : (BitVec.ofNat 16 p).toNat = p := by
  rw [BitVec.toNat_ofNat,Nat.mod_eq_of_lt inside]

theorem place_mod (p : Nat) : (BitVec.ofNat 16 p).toNat % 4 = p % 4 := by
  rw [BitVec.toNat_ofNat]
  omega

theorem nonzero_toNat (positive : t.toNat ≠ 0) : t ≠ 0 := fun zero => positive (congrArg BitVec.toNat zero)

theorem mask_toNat (x : BitVec 16) : (x &&& wmask).toNat = x.toNat % 4 := by
  rw [BitVec.toNat_and]
  exact Nat.and_two_pow_sub_one_eq_mod x.toNat 2

theorem mask_zero {x : BitVec 16} : x &&& wmask = 0 ↔ x.toNat % 4 = 0 := by
  rw [← mask_toNat]
  exact BitVec.toNat_inj.symm

theorem byte_moved (s : Cursor) : s.byte.memory = moved s.memory s.dst.toNat s.src.toNat 1 := store8_load8 ..

theorem word_moved (s : Cursor) : s.word.memory = moved s.memory s.dst.toNat s.src.toNat 4 := store32_load32 ..

theorem word_aligned (aligned : Aligned s.words) (atDst : s.dst.toNat % 4 = 0) (atSrc : s.src.toNat % 4 = 0) :
    Aligned s.word.words := by
  intro w member
  obtain before | new := List.mem_append.mp member
  · exact aligned w before
  · obtain rfl | rfl : w = s.src ∨ w = s.dst := by simpa using new
    · exact mask_zero.mpr atSrc
    · exact mask_zero.mpr atDst

theorem byteUp_up (under : dst ≤ src) (bound : src + k + 1 ≤ 2^16) (made : Up m dst src k s) :
    Up m dst src (k + 1) s.byteUp := by
  have atDst : s.dst.toNat = dst + k := by rw [made.dst,toNat_place (by omega)]
  have atSrc : s.src.toNat = src + k := by rw [made.src,toNat_place (by omega)]
  have memory : s.byteUp.memory = moved m dst src (k + 1) := by
    have copied := byte_moved s
    rw [atDst,atSrc,made.memory,moved_low under] at copied
    exact copied
  refine ⟨memory,?_,?_,made.words⟩
  · rw [← Nat.add_assoc,BitVec.ofNat_add,← made.dst]
    rfl
  · rw [← Nat.add_assoc,BitVec.ofNat_add,← made.src]
    rfl

theorem wordUp_up (under : dst ≤ src) (bound : src + k + 4 ≤ 2^16) (made : Up m dst src k s)
    (aligned : (dst + k) % 4 = 0 ∧ (src + k) % 4 = 0) : Up m dst src (k + 4) s.wordUp := by
  have atDst : s.dst.toNat = dst + k := by rw [made.dst,toNat_place (by omega)]
  have atSrc : s.src.toNat = src + k := by rw [made.src,toNat_place (by omega)]
  have memory : s.wordUp.memory = moved m dst src (k + 4) := by
    have copied := word_moved s
    rw [atDst,atSrc,made.memory,moved_low under] at copied
    exact copied
  refine ⟨memory,?_,?_,word_aligned made.words (atDst ▸ aligned.1) (atSrc ▸ aligned.2)⟩
  · rw [← Nat.add_assoc,BitVec.ofNat_add,← made.dst]
    rfl
  · rw [← Nat.add_assoc,BitVec.ofNat_add,← made.src]
    rfl

theorem down_place {p : Nat} (k : Nat) : BitVec.ofNat 16 (p + k) - BitVec.ofNat 16 k = BitVec.ofNat 16 p := by
  rw [BitVec.ofNat_add,BitVec.add_sub_cancel]

theorem byteDown_down (beyond : src ≤ dst) (bound : dst + n ≤ 2^16) (more : k + 1 ≤ n) (made : Down m dst src n k s) :
    Down m dst src n (k + 1) s.byteDown := by
  have rest : n - k = n - (k + 1) + 1 := by omega
  have stepDst : (s.down 1).dst = BitVec.ofNat 16 (dst + (n - (k + 1))) := by
    rw [← down_place 1,Nat.add_assoc,← rest,← made.dst]
    rfl
  have stepSrc : (s.down 1).src = BitVec.ofNat 16 (src + (n - (k + 1))) := by
    rw [← down_place 1,Nat.add_assoc,← rest,← made.src]
    rfl
  refine ⟨?_,stepDst,stepSrc,made.words⟩
  have copied := byte_moved (s.down 1)
  have before : (s.down 1).memory = s.memory := rfl
  rw [stepDst,stepSrc,toNat_place (by omega),toNat_place (by omega),before,made.memory,rest,
    ← Nat.add_assoc,← Nat.add_assoc,moved_high (by omega),Nat.add_comm 1] at copied
  exact copied

theorem wordDown_down (beyond : src ≤ dst) (bound : dst + n ≤ 2^16) (more : k + 4 ≤ n) (made : Down m dst src n k s)
    (aligned : (dst + (n - k)) % 4 = 0 ∧ (src + (n - k)) % 4 = 0) : Down m dst src n (k + 4) s.wordDown := by
  have rest : n - k = n - (k + 4) + 4 := by omega
  have stepDst : (s.down wsize).dst = BitVec.ofNat 16 (dst + (n - (k + 4))) := by
    rw [← down_place 4,Nat.add_assoc,← rest,← made.dst]
    rfl
  have stepSrc : (s.down wsize).src = BitVec.ofNat 16 (src + (n - (k + 4))) := by
    rw [← down_place 4,Nat.add_assoc,← rest,← made.src]
    rfl
  refine ⟨?_,stepDst,stepSrc,word_aligned (s := s.down wsize) made.words ?_ ?_⟩
  · have copied := word_moved (s.down wsize)
    have before : (s.down wsize).memory = s.memory := rfl
    rw [stepDst,stepSrc,toNat_place (by omega),toNat_place (by omega),before,made.memory,rest,
      ← Nat.add_assoc,← Nat.add_assoc,moved_high (by omega),Nat.add_comm 4] at copied
    exact copied
  · rw [stepDst,toNat_place (by omega)]
    omega
  · rw [stepSrc,toNat_place (by omega)]
    omega

/-- The test for two pointers that are both on a word. -/
theorem both_aligned {x y : BitVec 16} : (x ||| y) &&& wmask = 0 ↔ x.toNat % 4 = 0 ∧ y.toNat % 4 = 0 := by
  rw [BitVec.and_or_distrib_right,← mask_zero,← mask_zero]
  exact BitVec.or_eq_zero_iff

/-- The test for two pointers that have the same place in a word. -/
theorem alike_aligned {x y : BitVec 16} : (x ^^^ y) &&& wmask = 0 ↔ x.toNat % 4 = y.toNat % 4 := by
  have parts : (x ^^^ y) &&& wmask = (x &&& wmask) ^^^ (y &&& wmask) := by
    apply BitVec.eq_of_toNat_eq
    simp only [BitVec.toNat_and,BitVec.toNat_xor,Nat.and_xor_distrib_right]
  rw [parts,← mask_toNat,← mask_toNat]
  exact BitVec.xor_eq_zero_iff.trans BitVec.toNat_inj.symm

theorem bytesUp (under : dst ≤ src) (bound : src + n ≤ 2^16) (count : Nat) (made : Up m dst src k s)
    (room : k + count ≤ n) : Up m dst src (k + count) (Cursor.byteUp^[count] s) := by
  have copied := iterate_stride (n := n)
    (fun _ _ made more => byteUp_up under (by omega) made) count made (by omega)
  rwa [Nat.mul_one] at copied

theorem wordsUp (under : dst ≤ src) (bound : src + n ≤ 2^16) (count : Nat) (made : Up m dst src k s)
    (room : k + count * 4 ≤ n) (aligned : (dst + k) % 4 = 0 ∧ (src + k) % 4 = 0) :
    Up m dst src (k + count * 4) (Cursor.wordUp^[count] s) := by
  have stride : ∀ k s, (Up m dst src k s ∧ (dst + k) % 4 = 0 ∧ (src + k) % 4 = 0) → k + 4 ≤ n →
      Up m dst src (k + 4) s.wordUp ∧ (dst + (k + 4)) % 4 = 0 ∧ (src + (k + 4)) % 4 = 0 :=
    fun _ _ made more => ⟨wordUp_up under (by omega) made.1 made.2,by omega,by omega⟩
  exact (iterate_stride stride count ⟨made,aligned⟩ room).1

theorem bytesDown (beyond : src ≤ dst) (bound : dst + n ≤ 2^16) (count : Nat) (made : Down m dst src n k s)
    (room : k + count ≤ n) : Down m dst src n (k + count) (Cursor.byteDown^[count] s) := by
  have copied := iterate_stride (n := n)
    (fun _ _ made more => byteDown_down beyond bound more made) count made (by omega)
  rwa [Nat.mul_one] at copied

theorem wordsDown (beyond : src ≤ dst) (bound : dst + n ≤ 2^16) (count : Nat) (made : Down m dst src n k s)
    (room : k + count * 4 ≤ n) (aligned : (dst + (n - k)) % 4 = 0 ∧ (src + (n - k)) % 4 = 0) :
    Down m dst src n (k + count * 4) (Cursor.wordDown^[count] s) := by
  have stride : ∀ k s, (Down m dst src n k s ∧ (dst + (n - k)) % 4 = 0 ∧ (src + (n - k)) % 4 = 0) → k + 4 ≤ n →
      Down m dst src n (k + 4) s.wordDown ∧ (dst + (n - (k + 4))) % 4 = 0 ∧ (src + (n - (k + 4))) % 4 = 0 :=
    fun _ _ made more => ⟨wordDown_down beyond bound more made.1 made.2,by omega,by omega⟩
  exact (iterate_stride stride count ⟨made,aligned⟩ room).1

/-- What is left behind the first bytes: fewer bytes than a word has, or both pointers on a word. -/
theorem alignUp_up (under : dst ≤ src) (bound : src + n ≤ 2^16) (positive : length ≠ 0) (counts : length.toNat = n)
    (made : Up m dst src 0 s) : ∃ k ≤ n, Up m dst src k (alignUp s length).1 ∧ (alignUp s length).2.toNat = n - k ∧
      (4 ≤ n - k → (dst + k) % 4 = 0 ∧ (src + k) % 4 = 0) := by
  have atDst : s.dst.toNat % 4 = dst % 4 := by rw [made.dst,place_mod,Nat.add_zero]
  have atSrc : s.src.toNat % 4 = src % 4 := by rw [made.src,place_mod,Nat.add_zero]
  unfold alignUp
  dsimp only
  split
  · rename_i somewhere
    rw [ne_eq,both_aligned,atDst,atSrc] at somewhere
    split
    · rename_i apart
      refine ⟨n,le_rfl,?_,by simp,by omega⟩
      have copied := bytesUp under bound n made (by omega)
      rw [Nat.zero_add] at copied
      rwa [tloop1_iterate positive,counts]
    · rename_i alike
      rw [not_or,not_not,alike_aligned,atDst,atSrc,BitVec.not_lt,BitVec.le_def,counts] at alike
      obtain ⟨same,room⟩ := alike
      have word : wsize.toNat = 4 := rfl
      rw [word] at room
      have first : (s.src &&& wmask).toNat = src % 4 := by rw [mask_toNat,atSrc]
      have below : s.src &&& wmask ≤ wsize := by
        rw [BitVec.le_def,first,word]
        omega
      have count : (wsize - (s.src &&& wmask)).toNat = 4 - src % 4 := by rw [BitVec.toNat_sub_of_le below,first,word]
      have within : wsize - (s.src &&& wmask) ≤ length := by
        rw [BitVec.le_def,counts,count]
        omega
      refine ⟨4 - src % 4,by omega,?_,?_,by omega⟩
      · have copied := bytesUp under bound (4 - src % 4) made (by omega)
        rw [Nat.zero_add] at copied
        rwa [tloop1_iterate (nonzero_toNat (by omega)),count]
      · rw [BitVec.toNat_sub_of_le within,counts,count]
  · rename_i aligned
    rw [not_not,both_aligned,atDst,atSrc] at aligned
    exact ⟨0,Nat.zero_le n,made,by simpa using counts,fun _ => ⟨aligned.2,aligned.1⟩⟩

theorem alignDown_down (beyond : src ≤ dst) (bound : dst + n ≤ 2^16) (positive : length ≠ 0) (counts : length.toNat = n)
    (made : Down m dst src n 0 s) : ∃ k ≤ n, Down m dst src n k (alignDown s length).1 ∧
      (alignDown s length).2.toNat = n - k ∧ (4 ≤ n - k → (dst + (n - k)) % 4 = 0 ∧ (src + (n - k)) % 4 = 0) := by
  have atDst : s.dst.toNat % 4 = (dst + n) % 4 := by rw [made.dst,place_mod,Nat.sub_zero]
  have atSrc : s.src.toNat % 4 = (src + n) % 4 := by rw [made.src,place_mod,Nat.sub_zero]
  unfold alignDown
  dsimp only
  split
  · rename_i somewhere
    rw [ne_eq,both_aligned,atDst,atSrc] at somewhere
    split
    · rename_i apart
      refine ⟨n,le_rfl,?_,by simp,by omega⟩
      have copied := bytesDown beyond bound n made (by omega)
      rw [Nat.zero_add] at copied
      rwa [tloop1_iterate positive,counts]
    · rename_i alike
      rw [not_or,not_not,alike_aligned,atDst,atSrc,BitVec.not_le,BitVec.lt_def,counts] at alike
      obtain ⟨same,room⟩ := alike
      have word : wsize.toNat = 4 := rfl
      rw [word] at room
      have count : (s.src &&& wmask).toNat = (src + n) % 4 := by rw [mask_toNat,atSrc]
      have within : s.src &&& wmask ≤ length := by
        rw [BitVec.le_def,counts,count]
        omega
      refine ⟨(src + n) % 4,by omega,?_,?_,by omega⟩
      · have copied := bytesDown beyond bound ((src + n) % 4) made (by omega)
        rw [Nat.zero_add] at copied
        rwa [tloop1_iterate (nonzero_toNat (by omega)),count]
      · rw [BitVec.toNat_sub_of_le within,counts,count]
  · rename_i aligned
    rw [not_not,both_aligned,atDst,atSrc] at aligned
    exact ⟨0,Nat.zero_le n,made,by simpa using counts,fun _ => ⟨by simpa using aligned.2,by simpa using aligned.1⟩⟩

/-- The counts of words and bytes for a length. -/
theorem counts_toNat {left : Nat} (counts : length.toNat = left) :
    (length / wsize).toNat = left/4 ∧ (length &&& wmask).toNat = left % 4 := by
  refine ⟨?_,by rw [mask_toNat,counts]⟩
  rw [BitVec.toNat_udiv,counts]
  rfl

theorem forward_up (under : dst ≤ src) (bound : src + n ≤ 2^16) (positive : length ≠ 0) (counts : length.toNat = n)
    (made : Up m dst src 0 s) : Up m dst src n (forward s length) := by
  obtain ⟨k,inside,first,left,aligned⟩ := alignUp_up under bound positive counts made
  obtain ⟨words,bytes⟩ := counts_toNat left
  have middle : Up m dst src (k + (n - k)/4 * 4) (Cursor.wordUp^[(n - k)/4] (alignUp s length).1) := by
    by_cases whole : 4 ≤ n - k
    · exact wordsUp under bound _ first (by omega) (aligned whole)
    · have nothing : (n - k)/4 = 0 := by omega
      rw [nothing]
      exact first
  have last := bytesUp under bound ((n - k) % 4) middle (by omega)
  have all : k + (n - k)/4 * 4 + (n - k) % 4 = n := by omega
  rw [all] at last
  rwa [forward,tloop_iterate,tloop_iterate,words,bytes]

theorem backward_down (beyond : src ≤ dst) (bound : dst + n ≤ 2^16) (positive : length ≠ 0) (counts : length.toNat = n)
    (made : Down m dst src n 0 (s.up length)) : Down m dst src n n (backward s length) := by
  obtain ⟨k,inside,first,left,aligned⟩ := alignDown_down beyond bound positive counts made
  obtain ⟨words,bytes⟩ := counts_toNat left
  have middle : Down m dst src n (k + (n - k)/4 * 4) (Cursor.wordDown^[(n - k)/4] (alignDown (s.up length) length).1) := by
    by_cases whole : 4 ≤ n - k
    · exact wordsDown beyond bound _ first (by omega) (aligned whole)
    · have nothing : (n - k)/4 = 0 := by omega
      rw [nothing]
      exact first
  have last := bytesDown beyond bound ((n - k) % 4) middle (by omega)
  have all : k + (n - k)/4 * 4 + (n - k) % 4 = n := by omega
  rw [all] at last
  rwa [backward,tloop_iterate,tloop_iterate,words,bytes]

theorem place_toNat (p : BitVec 16) : BitVec.ofNat 16 p.toNat = p := by simp

theorem memcpy_moved (m : Memory) (dest src length : BitVec 16) (toEnd : dest.toNat + length.toNat ≤ 2^16)
    (fromEnd : src.toNat + length.toNat ≤ 2^16) :
    (memcpy m dest src length).1.memory = moved m dest.toNat src.toNat length.toNat ∧
    Aligned (memcpy m dest src length).1.words ∧ (memcpy m dest src length).2 = dest := by
  unfold memcpy
  dsimp only
  split
  · rename_i nothing
    refine ⟨?_,by simp [Aligned],rfl⟩
    obtain rfl | rfl := nothing
    · exact (moved_zero m _ _).symm
    · exact (moved_self m _ _).symm
  · rename_i something
    obtain ⟨positive,-⟩ := not_or.mp something
    split
    · rename_i below
      have start : Up m dest.toNat src.toNat 0 ⟨m,dest,src,[]⟩ :=
        ⟨(moved_zero ..).symm,(place_toNat dest).symm,(place_toNat src).symm,by simp [Aligned]⟩
      have copied := forward_up (Nat.le_of_lt (BitVec.lt_def.mp below)) fromEnd positive rfl start
      exact ⟨copied.memory,copied.words,rfl⟩
    · rename_i above
      have beyond := BitVec.le_def.mp (BitVec.not_lt.mp above)
      have start : Down m dest.toNat src.toNat length.toNat 0 (Cursor.up ⟨m,dest,src,[]⟩ length) := by
        refine ⟨(moved_zero ..).symm,?_,?_,by simp [Aligned,Cursor.up]⟩
        · rw [Nat.sub_zero,BitVec.ofNat_add,place_toNat,place_toNat]
          rfl
        · rw [Nat.sub_zero,BitVec.ofNat_add,place_toNat,place_toNat]
          rfl
      have copied := backward_down beyond toEnd positive rfl start
      have memory := copied.memory
      rw [Nat.sub_self,Nat.add_zero,Nat.add_zero] at memory
      exact ⟨memory,copied.words,rfl⟩

/-- Each byte of the destination gets what the source held before the call, also where they overlap; no other byte
changes, words are touched at their boundaries only, and the pointer to the destination comes back. -/
theorem memcpy_moves (m : Memory) (dest src length : BitVec 16) (toEnd : dest.toNat + length.toNat ≤ 2^16)
    (fromEnd : src.toNat + length.toNat ≤ 2^16) :
    (∀ i < length.toNat, (memcpy m dest src length).1.memory (dest.toNat + i) = m (src.toNat + i)) ∧
    Within m (memcpy m dest src length).1.memory dest.toNat (dest.toNat + length.toNat) ∧
    Aligned (memcpy m dest src length).1.words ∧ (memcpy m dest src length).2 = dest := by
  obtain ⟨memory,words,pointer⟩ := memcpy_moved m dest src length toEnd fromEnd
  rw [memory]
  exact ⟨fun _ inside => moved_inside inside,moved_within m _ _ _,words,pointer⟩

/-- Nine bytes, two places upwards. -/
theorem memcpy_moves_overlap : (memcpy (fun a => UInt8.ofNat a) 0x12 0x10 9).1.memory 0x1A = 0x18 :=
  (memcpy_moves (fun a => UInt8.ofNat a) 0x12 0x10 9 (by decide) (by decide)).1 8 (by decide)

end BermudaOS.Clib.MemCopy
