import Mathlib.Logic.Function.Iterate
import BermudaOS.Lib.ByteMemory

/-! Moves of byte ranges. The range at the destination gets what the range at the source held, also
where the two overlap. A move downwards can be made in pieces from its low end on, a move upwards
from its high end on. -/
namespace BermudaOS.Lib.Moves
open ByteMemory

/-- `[dst,dst+n)` holds what `[src,src+n)` held. -/
def moved (m : Memory) (dst src n : Nat) : Memory :=
  fun x => if dst ≤ x ∧ x < dst + n then m (src + (x - dst)) else m x

def load32 (m : Memory) (a : Nat) : Nat := load16 m a + 2^16 * load16 m (a+2)

def store32 (m : Memory) (a v : Nat) : Memory := store16 (store16 m a v) (a+2) (v/2^16)

variable {m : Memory} {dst src n k : Nat}

theorem moved_inside {i : Nat} (inside : i < n) : moved m dst src n (dst + i) = m (src + i) := by
  have offset : dst + i - dst = i := Nat.add_sub_cancel_left dst i
  rw [moved,if_pos (by omega),offset]

theorem moved_within (m : Memory) (dst src n : Nat) : Within m (moved m dst src n) dst (dst + n) :=
  fun _ outside => if_neg (by omega)

theorem moved_zero (m : Memory) (dst src : Nat) : moved m dst src 0 = m := by
  ext1 x
  exact moved_within m dst src 0 x (by omega)

theorem moved_self (m : Memory) (dst n : Nat) : moved m dst dst n = m := by
  ext1 x
  by_cases inside : dst ≤ x ∧ x < dst + n
  · have place : dst + (x - dst) = x := by omega
    rw [moved,if_pos inside,place]
  · exact if_neg inside

/-- The low piece first: it leaves the rest of a source above the destination. -/
theorem moved_low (down : dst ≤ src) : moved (moved m dst src k) (dst + k) (src + k) n = moved m dst src (k + n) := by
  ext1 x
  by_cases high : dst + k ≤ x ∧ x < dst + k + n
  · have place : src + k + (x - (dst + k)) = src + (x - dst) := by omega
    rw [moved,if_pos high,place,moved,if_neg (by omega),moved,if_pos (by omega)]
  · rw [moved,if_neg high]
    by_cases low : dst ≤ x ∧ x < dst + k
    · rw [moved,if_pos low,moved,if_pos (by omega)]
    · rw [moved,if_neg low,moved,if_neg (by omega)]

/-- The high piece first: it leaves the rest of a source below the destination. -/
theorem moved_high (up : src ≤ dst) : moved (moved m (dst + k) (src + k) n) dst src k = moved m dst src (k + n) := by
  ext1 x
  by_cases low : dst ≤ x ∧ x < dst + k
  · rw [moved,if_pos low,moved,if_neg (by omega),moved,if_pos (by omega)]
  · rw [moved,if_neg low]
    by_cases high : dst + k ≤ x ∧ x < dst + k + n
    · have place : src + k + (x - (dst + k)) = src + (x - dst) := by omega
      rw [moved,if_pos high,place,moved,if_pos (by omega)]
    · rw [moved,if_neg high,moved,if_neg (by omega)]

theorem store8_load8 (m : Memory) (dst src : Nat) : store8 m dst (m src).toNat = moved m dst src 1 := by
  ext1 x
  by_cases here : x = dst
  · have place : src + (x - dst) = src := by omega
    rw [moved,if_pos (by omega),place,here,store8,Function.update_self,UInt8.ofNat_toNat]
  · rw [store8_within m dst _ x (by omega),moved_within m dst src 1 x (by omega)]

/-- A range of one memory, in another one. -/
def pasted {α : Type} (source m : Nat → α) (dst src n : Nat) : Nat → α :=
  fun x => if dst ≤ x ∧ x < dst + n then source (src + (x - dst)) else m x

theorem pasted_zero {α : Type} (source m : Nat → α) (dst src : Nat) : pasted source m dst src 0 = m := by
  ext1 x
  exact if_neg (by omega)

theorem pasted_succ {α : Type} (source m : Nat → α) (dst src n : Nat) :
    Function.update (pasted source m dst src n) (dst + n) (source (src + n)) = pasted source m dst src (n + 1) := by
  ext1 x
  by_cases last : x = dst + n
  · have place : src + (x - dst) = src + n := by omega
    rw [pasted,if_pos (by omega),place,last,Function.update_self]
  · rw [Function.update_of_ne last]
    by_cases low : dst ≤ x ∧ x < dst + n
    · rw [pasted,pasted,if_pos low,if_pos (by omega)]
    · rw [pasted,pasted,if_neg low,if_neg (by omega)]

theorem pasted_append (source m : Memory) (dst src k n : Nat) :
    pasted source (pasted source m dst src k) (dst + k) (src + k) n = pasted source m dst src (k + n) := by
  ext1 x
  by_cases high : dst + k ≤ x ∧ x < dst + k + n
  · have place : src + k + (x - (dst + k)) = src + (x - dst) := by omega
    rw [pasted,if_pos high,place,pasted,if_pos (by omega)]
  · rw [pasted,if_neg high]
    by_cases low : dst ≤ x ∧ x < dst + k
    · rw [pasted,if_pos low,pasted,if_pos (by omega)]
    · rw [pasted,if_neg low,pasted,if_neg (by omega)]

theorem store16_load16 (source m : Memory) (dst src high : Nat) :
    store16 m dst (load16 source src + 2^16 * high) = pasted source m dst src 2 := by
  have first := (source src).toNat_lt
  have second := (source (src+1)).toNat_lt
  have lowByte : UInt8.ofNat (load16 source src + 2^16 * high) = source src := by
    apply UInt8.toNat.inj
    rw [UInt8.toNat_ofNat',load16]
    omega
  have highByte : UInt8.ofNat ((load16 source src + 2^16 * high)/256) = source (src+1) := by
    apply UInt8.toNat.inj
    rw [UInt8.toNat_ofNat',load16]
    omega
  ext1 x
  rw [store16,lowByte,highByte,pasted]
  by_cases last : x = dst + 1
  · have place : src + (x - dst) = src + 1 := by omega
    rw [if_pos (by omega),place,last,Function.update_self]
  · rw [Function.update_of_ne last]
    by_cases here : x = dst
    · have place : src + (x - dst) = src := by omega
      rw [if_pos (by omega),place,here,Function.update_self]
    · rw [Function.update_of_ne here,if_neg (by omega)]

/-- A word that is read whole and then written is a move, whatever the distance. -/
theorem store32_load32 (m : Memory) (dst src : Nat) : store32 m dst (load32 m src) = moved m dst src 4 := by
  have bound := load16_lt m src
  have upper : (load32 m src)/2^16 = load16 m (src+2) + 2^16 * 0 := by
    unfold load32
    omega
  have lower : store16 m dst (load32 m src) = pasted m m dst src 2 := store16_load16 m m dst src _
  rw [store32,lower,upper,store16_load16,pasted_append]
  rfl

/-- A loop whose body makes a stride of `c`. -/
theorem iterate_stride {σ : Type} {f : σ → σ} {made : Nat → σ → Prop} {c n : Nat}
    (stride : ∀ k s, made k s → k + c ≤ n → made (k + c) (f s)) (t : Nat) {k : Nat} {s : σ} (start : made k s)
    (bound : k + t * c ≤ n) : made (k + t * c) (f^[t] s) := by
  induction t generalizing k s with
  | zero => simpa using start
  | succ t ih =>
    have room : k + c + t * c ≤ n := by
      rw [Nat.succ_mul] at bound
      omega
    have later := ih (stride k s start (by omega)) room
    rw [Nat.add_assoc,Nat.add_comm c,← Nat.succ_mul] at later
    exact later

end BermudaOS.Lib.Moves
