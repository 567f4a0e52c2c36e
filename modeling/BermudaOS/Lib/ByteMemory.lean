import Mathlib.Algebra.Group.Nat.Defs
import Mathlib.Logic.Function.Basic
import Mathlib.Tactic.SplitIfs

/-! Byte-addressed memory with 16-bit little-endian words and null-terminated
pointers. A read depends on the bytes it covers and on nothing else, so frame
facts are statements about disjoint byte ranges. -/
namespace BermudaOS.Lib.ByteMemory

abbrev Memory := Nat → UInt8

/-- The two memories hold the same bytes in `[a,a+n)`. -/
def Agree (m other : Memory) (a n : Nat) : Prop := ∀ x, a ≤ x → x < a + n → other x = m x

def store8 (m : Memory) (a v : Nat) : Memory := Function.update m a (UInt8.ofNat v)

def load16 (m : Memory) (a : Nat) : Nat := (m a).toNat + 256 * (m (a+1)).toNat

def store16 (m : Memory) (a v : Nat) : Memory :=
  Function.update (Function.update m a (UInt8.ofNat v)) (a+1) (UInt8.ofNat (v/256))

def toPtr (v : Nat) : Option Nat := if v = 0 then none else some v

def ofPtr (p : Option Nat) : Nat := p.getD 0

def loadPtr (m : Memory) (a : Nat) : Option Nat := toPtr (load16 m a)

def storePtr (m : Memory) (a : Nat) (p : Option Nat) : Memory := store16 m a (ofPtr p)

/-- The second memory differs from the first inside `[lo,hi)` only. -/
def Within (m other : Memory) (lo hi : Nat) : Prop := ∀ x, x < lo ∨ hi ≤ x → other x = m x

theorem within_refl (m : Memory) (lo hi : Nat) : Within m m lo hi := fun _ _ => rfl

theorem Within.trans {m other last : Memory} {lo hi : Nat} (first : Within m other lo hi)
    (second : Within other last lo hi) : Within m last lo hi :=
  fun x outside => (second x outside).trans (first x outside)

theorem Within.agree {m other : Memory} {lo hi b n : Nat} (within : Within m other lo hi)
    (apart : b + n ≤ lo ∨ hi ≤ b) : Agree m other b n :=
  fun x low high => within x (by omega)

theorem store8_within (m : Memory) (a v : Nat) : Within m (store8 m a v) a (a+1) :=
  fun x outside => Function.update_of_ne (by omega) _ _

theorem store16_within (m : Memory) (a v : Nat) : Within m (store16 m a v) a (a+2) := by
  intro x outside
  rw [store16,Function.update_of_ne (by omega),Function.update_of_ne (by omega)]

theorem storePtr_within (m : Memory) (a : Nat) (p : Option Nat) :
    Within m (storePtr m a p) a (a+2) := store16_within m a (ofPtr p)

theorem Within.mono {m other : Memory} {lo hi low high : Nat} (within : Within m other lo hi)
    (left : low ≤ lo) (right : hi ≤ high) : Within m other low high :=
  fun x outside => within x (by omega)

theorem Agree.trans {m other last : Memory} {a n : Nat} (first : Agree m other a n)
    (second : Agree other last a n) : Agree m last a n :=
  fun x low high => (second x low high).trans (first x low high)

theorem Agree.mono {m other : Memory} {a n b k : Nat} (agree : Agree m other a n)
    (low : a ≤ b) (high : b + k ≤ a + n) : Agree m other b k :=
  fun x left right => agree x (by omega) (by omega)

theorem load8_congr {m other : Memory} {a : Nat} (agree : Agree m other a 1) : other a = m a :=
  agree a (by omega) (by omega)

theorem load16_congr {m other : Memory} {a : Nat} (agree : Agree m other a 2) :
    load16 other a = load16 m a := by
  rw [load16,load16,agree a (by omega) (by omega),agree (a+1) (by omega) (by omega)]

theorem loadPtr_congr {m other : Memory} {a : Nat} (agree : Agree m other a 2) :
    loadPtr other a = loadPtr m a := by
  rw [loadPtr,loadPtr,load16_congr agree]

theorem load16_lt (m : Memory) (a : Nat) : load16 m a < 2^16 := by
  have low := (m a).toNat_lt
  have high := (m (a+1)).toNat_lt
  unfold load16
  omega

theorem load8_store8 (m : Memory) (a v : Nat) (bound : v < 2^8) : (store8 m a v a).toNat = v := by
  rw [store8,Function.update_self,UInt8.toNat_ofNat']
  omega

theorem load16_store16 (m : Memory) (a v : Nat) (bound : v < 2^16) : load16 (store16 m a v) a = v := by
  rw [load16,store16,Function.update_of_ne (by omega),Function.update_self,Function.update_self,
    UInt8.toNat_ofNat',UInt8.toNat_ofNat']
  omega

theorem loadPtr_storePtr (m : Memory) (a : Nat) (p : Option Nat)
    (bound : ∀ v, p = some v → 0 < v ∧ v < 2^16) : loadPtr (storePtr m a p) a = p := by
  cases p with
  | none => simp [loadPtr,storePtr,ofPtr,load16_store16,toPtr]
  | some v =>
    obtain ⟨positive,small⟩ := bound v rfl
    simp [loadPtr,storePtr,ofPtr,load16_store16 m a v small,toPtr,Nat.ne_of_gt positive]

theorem loadPtr_bound {m : Memory} {a v : Nat} (loaded : loadPtr m a = some v) :
    0 < v ∧ v < 2^16 := by
  have bound := load16_lt m a
  unfold loadPtr toPtr at loaded
  split_ifs at loaded with null
  cases loaded
  omega

theorem toPtr_some {v : Nat} (positive : 0 < v) : toPtr v = some v := if_neg (Nat.ne_of_gt positive)

end BermudaOS.Lib.ByteMemory
