import Mathlib.Algebra.Group.Nat.Defs
import Mathlib.Data.Fintype.Card
import Mathlib.Data.List.Nodup

/-! Singly linked chains read through an arbitrary successor function. A segment
names the nodes a pointer visits before it stops; a chain is a segment that ends
at the null pointer. The four edits (link in front, link behind a node, drop the
front, drop behind a node) are stated by agreement of two successor functions,
so they serve links held in a record, in a function or in raw memory. -/
namespace BermudaOS.Lib.Chains

/-- Following `next` from `p` visits exactly the listed nodes and stops at `q`. -/
def Seg {α : Type} (next : α → Option α) : Option α → List α → Option α → Prop
  | p,[],q => p = q
  | p,x::xs,q => p = some x ∧ Seg next (next x) xs q

abbrev Chain {α : Type} (next : α → Option α) (p : Option α) (xs : List α) : Prop :=
  Seg next p xs none

@[simp] theorem seg_nil {α : Type} (next : α → Option α) (p q : Option α) :
    Seg next p [] q ↔ p = q := Iff.rfl

@[simp] theorem seg_cons {α : Type} (next : α → Option α) (p q : Option α) (x : α) (xs : List α) :
    Seg next p (x::xs) q ↔ p = some x ∧ Seg next (next x) xs q := Iff.rfl

theorem seg_append {α : Type} (next : α → Option α) (p q : Option α) (xs ys : List α) :
    Seg next p (xs ++ ys) q ↔ ∃ r, Seg next p xs r ∧ Seg next r ys q := by
  induction xs generalizing p with
  | nil => simp
  | cons x xs ih => simp only [List.cons_append,seg_cons,ih,and_assoc,exists_and_left]

theorem seg_congr {α : Type} {next other : α → Option α} {p q : Option α} {xs : List α}
    (seg : Seg next p xs q) (same : ∀ x ∈ xs, other x = next x) : Seg other p xs q := by
  induction xs generalizing p with
  | nil => exact seg
  | cons x xs ih =>
    refine ⟨seg.1,?_⟩
    rw [same x (by simp)]
    exact ih seg.2 (fun y member => same y (by simp [member]))

theorem chain_unique {α : Type} {next : α → Option α} {p : Option α} {xs ys : List α}
    (left : Chain next p xs) (right : Chain next p ys) : xs = ys := by
  induction xs generalizing p ys with
  | nil =>
    cases ys with
    | nil => rfl
    | cons y ys => have absurd := left.symm.trans right.1; simp at absurd
  | cons x xs ih =>
    cases ys with
    | nil => have absurd := right.symm.trans left.1; simp at absurd
    | cons y ys =>
      have equal : x = y := Option.some.inj (left.1.symm.trans right.1)
      subst equal
      rw [ih left.2 right.2]

theorem chain_head {α : Type} {next : α → Option α} {p : Option α} {xs : List α}
    (chain : Chain next p xs) : p = xs.head? := by
  cases xs with
  | nil => exact chain
  | cons x xs => exact chain.1

theorem chain_nodup {α : Type} {next : α → Option α} {p : Option α} {xs : List α}
    (chain : Chain next p xs) : xs.Nodup := by
  induction xs generalizing p with
  | nil => exact List.nodup_nil
  | cons x xs ih =>
    refine List.nodup_cons.mpr ⟨?_,ih chain.2⟩
    intro member
    obtain ⟨before,after,split⟩ := List.append_of_mem member
    have rest := chain.2
    rw [split,seg_append] at rest
    obtain ⟨r,_,again⟩ := rest
    have equal := chain_unique again (again.1 ▸ ⟨rfl,chain.2⟩ : Chain next r (x::xs))
    have size := congrArg List.length equal
    simp [split] at size
    omega

theorem chain_irrefl {α : Type} {next : α → Option α} {p : Option α} {xs : List α} (chain : Chain next p xs)
    {x : α} (member : x ∈ xs) : next x ≠ some x := by
  intro loop
  obtain ⟨before,after,rfl⟩ := List.append_of_mem member
  obtain ⟨r,_,_,rest⟩ := (seg_append next p none before (x::after)).mp chain
  rw [loop] at rest
  have inner : x ∈ after := by
    have first := chain_head rest
    exact List.mem_of_mem_head? first.symm
  exact (List.nodup_cons.mp (List.nodup_append.mp (chain_nodup chain)).2.1).1 inner

theorem update_outside {α β : Type} [DecidableEq α] {f : α → β} {y : α} {p : β} {xs : List α} (outside : y ∉ xs) :
    ∀ x ∈ xs, Function.update f y p x = f x := by
  intro x member
  apply Function.update_of_ne
  rintro rfl
  exact outside member

theorem chain_card {α : Type} [Fintype α] {next : α → Option α} {p : Option α} {xs : List α}
    (chain : Chain next p xs) : xs.length ≤ Fintype.card α := (chain_nodup chain).length_le_card

theorem nodup_length {n : Nat} {xs : List (BitVec n)} (nodup : xs.Nodup) : xs.length ≤ 2^n := by
  have values : (xs.map BitVec.toNat).Nodup := nodup.map fun _ _ equal => BitVec.eq_of_toNat_eq equal
  have inside : xs.map BitVec.toNat ⊆ List.range (2^n) := by
    intro value member
    obtain ⟨x,_,rfl⟩ := List.mem_map.mp member
    exact List.mem_range.mpr x.isLt
  simpa using (values.subperm inside).length_le

/-- A pointer of 16 bits that is not null. -/
abbrev NonNull := { p : BitVec 16 // p ≠ 0 }

instance nonnull_lawful : LawfulBEq NonNull := inferInstance

/-- More steps than a chain of such pointers has nodes. -/
def addressSpace : Nat := 2^16

theorem nonnull_length {n : Nat} {xs : List {p : BitVec n // p ≠ 0}} (nodup : xs.Nodup) : xs.length < 2^n := by
  have values : (0::xs.map Subtype.val).Nodup := by
    refine List.nodup_cons.mpr ⟨?_,nodup.map Subtype.val_injective⟩
    intro member
    obtain ⟨x,_,zero⟩ := List.mem_map.mp member
    exact x.2 zero
  have bound := nodup_length values
  rw [List.length_cons,List.length_map] at bound
  exact Nat.lt_of_succ_le bound

theorem seg_link_front {α : Type} {next other : α → Option α} {p q : Option α} {z : α}
    {xs : List α} (seg : Seg next p xs q) (link : other z = p)
    (same : ∀ x ∈ xs, other x = next x) : Seg other (some z) (z::xs) q :=
  ⟨rfl,link ▸ seg_congr seg same⟩

theorem seg_link_behind {α : Type} {next other : α → Option α} {p q : Option α} {x z : α}
    {before after : List α} (seg : Seg next p (before ++ x::after) q)
    (link : other x = some z) (onward : other z = next x)
    (same : ∀ y ∈ before ++ after, other y = next y) :
    Seg other p (before ++ x::z::after) q := by
  rw [seg_append] at seg ⊢
  obtain ⟨r,left,start,right⟩ := seg
  refine ⟨r,seg_congr left (fun y member => same y (by simp [member])),start,link,?_⟩
  rw [onward]
  exact seg_congr right (fun y member => same y (by simp [member]))

theorem seg_drop_behind {α : Type} {next other : α → Option α} {p q : Option α} {x z : α}
    {before after : List α} (seg : Seg next p (before ++ x::z::after) q)
    (link : other x = next z) (same : ∀ y ∈ before ++ after, other y = next y) :
    Seg other p (before ++ x::after) q := by
  rw [seg_append] at seg ⊢
  obtain ⟨r,left,start,_,right⟩ := seg
  refine ⟨r,seg_congr left (fun y member => same y (by simp [member])),start,?_⟩
  rw [link]
  exact seg_congr right (fun y member => same y (by simp [member]))

/-- The nodes of a chain of at most `n` nodes. -/
def collect {α : Type} (next : α → Option α) : Nat → Option α → Option (List α)
  | _,none => some []
  | 0,some _ => none
  | n+1,some x => (collect next n (next x)).map (x::·)

theorem collect_chain {α : Type} {next : α → Option α} {n : Nat} {p : Option α} {xs : List α}
    (found : collect next n p = some xs) : Chain next p xs := by
  induction n generalizing p xs with
  | zero =>
    cases p with
    | none => cases found; rfl
    | some x => cases found
  | succ n ih =>
    cases p with
    | none => cases found; rfl
    | some x =>
      obtain ⟨ys,rest,rfl⟩ := Option.map_eq_some_iff.mp found
      exact ⟨rfl,ih rest⟩

theorem chain_collect {α : Type} {next : α → Option α} {n : Nat} {p : Option α} {xs : List α}
    (chain : Chain next p xs) (enough : xs.length ≤ n) : collect next n p = some xs := by
  induction xs generalizing n p with
  | nil =>
    obtain rfl : p = none := chain
    cases n <;> rfl
  | cons x xs ih =>
    obtain ⟨rfl,rest⟩ := chain
    obtain ⟨n,rfl⟩ : ∃ m, n = m + 1 := ⟨n - 1,by simp at enough; omega⟩
    rw [collect,ih rest (by simpa using enough)]
    rfl

end BermudaOS.Lib.Chains
