import BermudaOS.Lib.ByteMemory

/-! Strings that end at a zero byte, the comparison of `lib/c/string/strcmp.c`, and
`strlen` and `memcmp`. -/
namespace BermudaOS.Clib.Strings
open Lib.ByteMemory

/-- The string at the address `a`, with its end. -/
def StringAt (m : Memory) (a : Nat) : List UInt8 → Prop
  | [] => m a = 0
  | c::s => m a = c ∧ c ≠ 0 ∧ StringAt m (a + 1) s

instance decidableStringAt (m : Memory) : ∀ a s,Decidable (StringAt m a s)
  | a,[] => inferInstanceAs (Decidable (m a = 0))
  | a,c::s =>
    have := decidableStringAt m (a + 1) s
    inferInstanceAs (Decidable (m a = c ∧ c ≠ 0 ∧ StringAt m (a + 1) s))

/-- `strcmp`, for at most `n` characters. -/
def strcmp (m : Memory) : Nat → Nat → Nat → Option Int
  | 0,_,_ => none
  | n+1,s1,s2 =>
    if m s1 = m s2 then
      if m s1 = 0 then some 0 else strcmp m n (s1 + 1) (s2 + 1)
    else some ((m s1).toNat - (m s2).toNat)

/-- `strlen`, for strings of less than `n` characters. -/
def strlen (m : Memory) : Nat → Nat → Option Nat
  | 0,_ => none
  | n+1,s => if m s = 0 then some 0 else (strlen m n (s + 1)).map (· + 1)

def memcmp (m : Memory) : Nat → Nat → Nat → Int
  | 0,_,_ => 0
  | n+1,s1,s2 =>
    if m s1 = m s2 then memcmp m n (s1 + 1) (s2 + 1)
    else (m s1).toNat - (m s2).toNat

variable {m other : Memory} {a b n : Nat} {s t : List UInt8}

theorem stringAt_congr (string : StringAt m a s) (agree : Agree m other a (s.length + 1)) : StringAt other a s := by
  induction s generalizing a with
  | nil => exact (agree a (by omega) (by omega)).trans string
  | cons c s ih =>
    obtain ⟨first,nonzero,rest⟩ := string
    refine ⟨(agree a (by omega) (by simp)).trans first,nonzero,ih rest ?_⟩
    intro x low high
    exact agree x (by omega) (by simp; omega)

theorem stringAt_unique (left : StringAt m a s) (right : StringAt m a t) : s = t := by
  induction s generalizing a t with
  | nil =>
    cases t with
    | nil => rfl
    | cons d t => exact absurd (right.1.symm.trans left) right.2.1
  | cons c s ih =>
    cases t with
    | nil => exact absurd (left.1.symm.trans right) left.2.1
    | cons d t => rw [left.1.symm.trans right.1,ih left.2.2 right.2.2]

theorem stringAt_end (string : StringAt m a s) : m (a + s.length) = 0 := by
  induction s generalizing a with
  | nil => exact string
  | cons c s ih =>
    rw [List.length_cons,Nat.add_comm s.length,← Nat.add_assoc]
    exact ih string.2.2

theorem stringAt_drop (string : StringAt m a s) (k : Nat) (short : k ≤ s.length) : StringAt m (a + k) (s.drop k) := by
  induction k with
  | zero => exact string
  | succ k ih =>
    have rest := ih (Nat.le_of_succ_le short)
    rw [List.drop_eq_getElem_cons short] at rest
    exact rest.2.2

/-- The only zero in the string is its end. -/
theorem stringAt_zero (string : StringAt m a s) (k : Nat) (short : k ≤ s.length) : m (a + k) = 0 ↔ k = s.length := by
  constructor
  · intro zero
    by_contra inside
    have rest := stringAt_drop string k short
    rw [List.drop_eq_getElem_cons (by omega)] at rest
    exact rest.2.1 (rest.1.symm.trans zero)
  · intro last
    rw [last]
    exact stringAt_end string

theorem strcmp_differ (differ : m a ≠ m b) : ∃ r, strcmp m (n + 1) a b = some r ∧ r ≠ 0 := by
  refine ⟨(m a).toNat - (m b).toNat,by rw [strcmp,if_neg differ],?_⟩
  have values : (m a).toNat ≠ (m b).toNat := fun equal => differ (UInt8.toNat_inj.mp equal)
  omega

theorem strcmp_string (string : StringAt m a s) (enough : s.length < n) :
    ∃ r, strcmp m n a b = some r ∧ (r = 0 ↔ StringAt m b s) := by
  obtain ⟨n,rfl⟩ := Nat.exists_eq_add_one_of_ne_zero (Nat.ne_zero_of_lt enough)
  induction s generalizing a b n with
  | nil =>
    by_cases same : m a = m b
    · exact ⟨0,by rw [strcmp,if_pos same,if_pos (show m a = 0 from string)],iff_of_true rfl (same.symm.trans string)⟩
    · obtain ⟨r,result,nonzero⟩ := strcmp_differ (n := n) same
      exact ⟨r,result,iff_of_false nonzero fun other => same (Eq.trans string other.symm)⟩
  | cons c s ih =>
    obtain ⟨first,inner,rest⟩ := string
    by_cases same : m a = m b
    · obtain ⟨n,rfl⟩ := Nat.exists_eq_add_one_of_ne_zero (n := n) (by simp at enough; omega)
      obtain ⟨r,result,zero⟩ := ih (b := b + 1) rest n (by simpa using enough)
      refine ⟨r,by rw [strcmp,if_pos same,if_neg (by rwa [first]),result],zero.trans ?_⟩
      exact ⟨fun tail => ⟨same.symm.trans first,inner,tail⟩,fun whole => whole.2.2⟩
    · obtain ⟨r,result,nonzero⟩ := strcmp_differ (n := n) same
      exact ⟨r,result,iff_of_false nonzero fun other => same (first.trans other.1.symm)⟩

theorem strlen_string (string : StringAt m a s) (enough : s.length < n) : strlen m n a = some s.length := by
  obtain ⟨n,rfl⟩ := Nat.exists_eq_add_one_of_ne_zero (Nat.ne_zero_of_lt enough)
  induction s generalizing a n with
  | nil => rw [strlen,if_pos (show m a = 0 from string),List.length_nil]
  | cons c s ih =>
    obtain ⟨first,inner,rest⟩ := string
    obtain ⟨n,rfl⟩ := Nat.exists_eq_add_one_of_ne_zero (n := n) (by simp at enough; omega)
    rw [strlen,if_neg (by rwa [first]),ih rest n (by simpa using enough),Option.map_some,List.length_cons]

/-- Over the length of the second string, `memcmp` takes each of its extensions for it. -/
theorem memcmp_string (left : StringAt m a s) (right : StringAt m b t) : memcmp m t.length a b = 0 ↔ t <+: s := by
  induction t generalizing a b s with
  | nil => exact iff_of_true rfl List.nil_prefix
  | cons d t ih =>
    obtain ⟨first,inner,rest⟩ := right
    rw [List.length_cons,memcmp]
    by_cases same : m a = m b
    · rw [if_pos same]
      cases s with
      | nil => exact absurd ((first.symm.trans same.symm).trans left) inner
      | cons c s =>
        have letter : d = c := (first.symm.trans same.symm).trans left.1
        rw [ih left.2.2 rest,List.cons_prefix_cons,and_iff_right letter]
    · have values : (m a).toNat ≠ (m b).toNat := fun equal => same (UInt8.toNat_inj.mp equal)
      rw [if_neg same]
      refine iff_of_false (by omega) fun inside => same ?_
      cases s with
      | nil => simp at inside
      | cons c s => rw [left.1,first,(List.cons_prefix_cons.mp inside).1]

end BermudaOS.Clib.Strings
