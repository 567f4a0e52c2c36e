import BermudaOS.Lib.Gaps

/-! An agenda is a list of entries in the order of their keys. Serving it takes the first entry off
and, where the entry has a period, puts it back one period later. Each entry is served at its key and
every period after it, whatever else is on the agenda. -/
namespace BermudaOS.Lib.Agenda
open Gaps

variable {α : Type} {period : α → Nat} {e f : α × Nat} {es fs log : List (α × Nat)} {x : α} {k : Nat}

/-- What is left once the entry in front of `es` was served. -/
def serve (period : α → Nat) (e : α × Nat) (es : List (α × Nat)) : List (α × Nat) :=
  if period e.1 = 0 then es else insertKey (e.1,e.2 + period e.1) es

/-- The entries of `log` are served one after the other, and `fs` is left. -/
inductive Serves (period : α → Nat) : List (α × Nat) → List (α × Nat) → List (α × Nat) → Prop
  | rest (es : List (α × Nat)) : Serves period es [] es
  | first {e : α × Nat} {es log fs : List (α × Nat)} (later : Serves period (serve period e es) log fs) :
      Serves period (e::es) (e::log) fs

/-- An entry falls due at its key, and every period after it. -/
def Due (period : α → Nat) (es : List (α × Nat)) (x : α) (k : Nat) : Prop :=
  ∃ key n, (x,key) ∈ es ∧ k = key + n * period x

abbrev Sorted (es : List (α × Nat)) : Prop := es.Pairwise (fun e f => e.2 ≤ f.2)

theorem mem_insertKey : f ∈ insertKey e es ↔ f = e ∨ f ∈ es := by
  rw [(insertKey_perm e es).mem_iff,List.mem_cons]

theorem insertKey_sorted (e : α × Nat) (sorted : Sorted es) : Sorted (insertKey e es) := by
  induction es with
  | nil => exact List.pairwise_singleton _ _
  | cons f es ih =>
    obtain ⟨low,rest⟩ := List.pairwise_cons.mp sorted
    unfold insertKey
    rw [List.orderedInsert]
    split
    · next earlier =>
      refine List.pairwise_cons.mpr ⟨fun g member => ?_,sorted⟩
      rcases List.mem_cons.mp member with rfl | later
      · exact le_of_lt earlier
      · exact le_trans (le_of_lt earlier) (low g later)
    · next later =>
      refine List.pairwise_cons.mpr ⟨fun g member => ?_,ih rest⟩
      rcases mem_insertKey.mp member with rfl | other
      · exact Nat.not_lt.mp later
      · exact low g other

theorem mem_serve : f ∈ serve period e es ↔ f ∈ es ∨ period e.1 ≠ 0 ∧ f = (e.1,e.2 + period e.1) := by
  unfold serve
  split
  · next once => simp [once]
  · next again =>
    rw [mem_insertKey]
    simp [again,or_comm]

theorem serve_sorted (sorted : Sorted (e::es)) : Sorted (serve period e es) := by
  have rest := (List.pairwise_cons.mp sorted).2
  unfold serve
  split
  · exact rest
  · exact insertKey_sorted _ rest

theorem serve_names (names : ((e::es).map Prod.fst).Nodup) : ((serve period e es).map Prod.fst).Nodup := by
  unfold serve
  split
  · exact (List.nodup_cons.mp names).2
  · exact ((insertKey_perm _ es).map Prod.fst).nodup_iff.mpr names

theorem Serves.bound (serves : Serves period es log fs) (low : ∀ e ∈ es, k ≤ e.2) :
    (∀ e ∈ log, k ≤ e.2) ∧ ∀ f ∈ fs, k ≤ f.2 := by
  induction serves with
  | rest es => exact ⟨by simp,low⟩
  | @first e es log fs later ih =>
    have here := low e (by simp)
    obtain ⟨served,left⟩ := ih fun f member => by
      rcases mem_serve.mp member with other | ⟨_,rfl⟩
      · exact low f (by simp [other])
      · exact le_trans here (Nat.le_add_right _ _)
    exact ⟨List.forall_mem_cons.mpr ⟨here,served⟩,left⟩

theorem Serves.sorted (serves : Serves period es log fs) (sorted : Sorted es) :
    Sorted log ∧ ∀ e ∈ log, ∀ f ∈ fs, e.2 ≤ f.2 := by
  induction serves with
  | rest es => exact ⟨.nil,by simp⟩
  | @first e es log fs later ih =>
    obtain ⟨ordered,before⟩ := ih (serve_sorted sorted)
    have low := (List.pairwise_cons.mp sorted).1
    obtain ⟨served,left⟩ := later.bound (k := e.2) fun f member => by
      rcases mem_serve.mp member with other | ⟨_,rfl⟩
      · exact low f other
      · exact Nat.le_add_right _ _
    exact ⟨List.pairwise_cons.mpr ⟨served,ordered⟩,List.forall_mem_cons.mpr ⟨left,before⟩⟩

theorem due_cons : Due period (e::es) x k ↔ (x,k) = e ∨ Due period (serve period e es) x k := by
  constructor
  · intro ⟨key,n,member,due⟩
    rcases List.mem_cons.mp member with rfl | other
    · cases n with
      | zero => exact .inl (by rw [due,Nat.zero_mul,Nat.add_zero])
      | succ n =>
        by_cases once : period x = 0
        · exact .inl (by rw [due,once,Nat.mul_zero,Nat.add_zero])
        · refine .inr ⟨key + period x,n,mem_serve.mpr (.inr ⟨once,rfl⟩),?_⟩
          rw [due,Nat.succ_mul]
          omega
    · exact .inr ⟨key,n,mem_serve.mpr (.inl other),due⟩
  · rintro (rfl | ⟨key,n,member,due⟩)
    · exact ⟨k,0,by simp,by simp⟩
    · rcases mem_serve.mp member with other | ⟨_,own⟩
      · exact ⟨key,n,by simp [other],due⟩
      · obtain ⟨rfl,rfl⟩ := Prod.mk.inj own
        refine ⟨e.2,n + 1,by simp,?_⟩
        rw [due,Nat.succ_mul]
        omega

/-- A served entry is not due again at the same key. -/
theorem serve_passed (names : ((e::es).map Prod.fst).Nodup) : ¬Due period (serve period e es) e.1 e.2 := by
  intro ⟨key,n,member,due⟩
  rcases mem_serve.mp member with other | ⟨again,own⟩
  · exact (List.nodup_cons.mp names).1 (List.mem_map.mpr ⟨_,other,rfl⟩)
  · have moved : key = e.2 + period e.1 := congrArg Prod.snd own
    omega

theorem Serves.due_iff (serves : Serves period es log fs) (x : α) (k : Nat) :
    Due period es x k ↔ (x,k) ∈ log ∨ Due period fs x k := by
  induction serves with
  | rest es => simp
  | first later ih => rw [due_cons,ih,List.mem_cons,or_assoc]

theorem Serves.names (serves : Serves period es log fs) : ∀ f ∈ fs, ∃ e ∈ es, e.1 = f.1 := by
  induction serves with
  | rest es => exact fun f member => ⟨f,member,rfl⟩
  | @first e es log fs later ih =>
    intro f member
    obtain ⟨g,inside,same⟩ := ih f member
    rcases mem_serve.mp inside with other | ⟨_,rfl⟩
    · exact ⟨g,by simp [other],same⟩
    · exact ⟨e,by simp,same⟩

theorem Serves.once (serves : Serves period es log fs) (names : (es.map Prod.fst).Nodup) :
    log.Nodup ∧ ∀ e ∈ log, ¬Due period fs e.1 e.2 := by
  induction serves with
  | rest es => exact ⟨List.nodup_nil,by simp⟩
  | @first e es log fs later ih =>
    obtain ⟨nodup,passed⟩ := ih (serve_names names)
    have never : ¬Due period (serve period e es) e.1 e.2 := serve_passed names
    rw [later.due_iff,not_or] at never
    exact ⟨List.nodup_cons.mpr ⟨never.1,nodup⟩,List.forall_mem_cons.mpr ⟨never.2,passed⟩⟩

/-- Serving stops at the deadline `d`, after one entry that is due at `d` itself. -/
structure Stops (d : Nat) (log fs : List (α × Nat)) : Prop where
  served : ∀ e ∈ log, e.2 ≤ d
  single : ∀ e ∈ log, ∀ f ∈ log, e.2 = d → f.2 = d → e = f
  rest : (∀ f ∈ fs, d < f.2) ∨ ∃ e ∈ log, e.2 = d

variable {d : Nat}

/-- Where nothing due is left, the served entries are those that fell due. -/
theorem Serves.served_iff (serves : Serves period es log fs) (stops : Stops d log fs)
    (left : ∀ f ∈ fs, d < f.2) (x : α) (k : Nat) : (x,k) ∈ log ↔ Due period es x k ∧ k ≤ d := by
  rw [serves.due_iff]
  constructor
  · intro member
    exact ⟨.inl member,stops.served _ member⟩
  · rintro ⟨member | ⟨key,n,member,due⟩,early⟩
    · exact member
    · have late : d < key := left _ member
      omega

/-- Something due is left where two entries fall due at the deadline. -/
theorem Serves.left_iff (serves : Serves period es log fs) (sorted : Sorted es) (names : (es.map Prod.fst).Nodup)
    (stops : Stops d log fs) : (∀ f ∈ fs, d < f.2) ↔ ∀ x y, Due period es x d → Due period es y d → x = y := by
  constructor
  · intro left x y first second
    have one := (serves.served_iff stops left x d).mpr ⟨first,le_rfl⟩
    have other := (serves.served_iff stops left y d).mpr ⟨second,le_rfl⟩
    exact congrArg Prod.fst (stops.single _ one _ other rfl rfl)
  · intro alone
    rcases stops.rest with left | ⟨e,member,last⟩
    · exact left
    · intro f left
      by_contra early
      have order := (serves.sorted sorted).2 e member f left
      have same : f.2 = d := by omega
      have due : Due period fs f.1 d := ⟨f.2,0,left,by rw [same,Nat.zero_mul,Nat.add_zero]⟩
      have own := alone e.1 f.1 ((serves.due_iff e.1 d).mpr (.inl (last ▸ member))) ((serves.due_iff f.1 d).mpr (.inr due))
      refine (serves.once names).2 e member ?_
      rw [own,last]
      exact due

end BermudaOS.Lib.Agenda
