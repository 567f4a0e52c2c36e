import BermudaOS.Lib.Chains

/-! Lists that may close on themselves: what a walk along the links meets, and when it ends. -/
namespace BermudaOS.Lib.Chains

variable {α : Type} {next : α → Option α} {p : Option α} {x y : α} {xs before : List α}

/-- A walk from `p` meets the node. -/
inductive Reaches (next : α → Option α) : Option α → α → Prop
  | head {x : α} : Reaches next (some x) x
  | onward {x y : α} (rest : Reaches next (next x) y) : Reaches next (some x) y

/-- A walk from `p` comes back to one of its nodes. -/
def Circular (next : α → Option α) (p : Option α) : Prop := ∃ x, Reaches next p x ∧ Reaches next (next x) x

theorem reaches_closed (closed : next x = some x) (reaches : Reaches next (some x) y) : y = x := by
  generalize start : some x = p at reaches
  induction reaches with
  | head => exact (Option.some.inj start).symm
  | onward _ ih =>
    obtain rfl := Option.some.inj start
    exact ih closed.symm

/-- Before it meets a node that is linked to itself, a walk meets no other such node. -/
theorem reaches_first (reaches : Reaches next p x) (closed : next x = some x) :
    ∃ before, Seg next p before (some x) ∧ ∀ y ∈ before, next y ≠ some y := by
  induction reaches with
  | head => exact ⟨[],rfl,by simp⟩
  | @onward z x rest ih =>
    by_cases own : next z = some z
    · rw [own] at rest
      obtain rfl := reaches_closed own rest
      exact ⟨[],rfl,by simp⟩
    · obtain ⟨before,seg,loose⟩ := ih closed
      exact ⟨z::before,⟨rfl,seg⟩,List.forall_mem_cons.mpr ⟨own,loose⟩⟩

theorem reaches_append (reaches : Reaches next p y) (seg : Seg next p before (some x)) (closed : next x = some x) :
    y ∈ before ++ [x] := by
  induction reaches generalizing before with
  | head =>
    cases before with
    | nil => simp [Option.some.inj seg]
    | cons z zs => simp [Option.some.inj seg.1]
  | @onward z y rest ih =>
    cases before with
    | nil =>
      obtain rfl := Option.some.inj seg
      rw [closed] at rest
      simp [reaches_closed closed rest]
    | cons w ws =>
      obtain ⟨start,seg⟩ := seg
      obtain rfl := Option.some.inj start
      exact List.mem_cons_of_mem z (ih seg)

theorem chain_reaches (chain : Chain next p xs) (reaches : Reaches next p y) : y ∈ xs := by
  induction reaches generalizing xs with
  | head =>
    cases xs with
    | nil => cases chain
    | cons z zs => simp [Option.some.inj chain.1]
  | onward rest ih =>
    cases xs with
    | nil => cases chain
    | cons z zs =>
      obtain rfl := Option.some.inj chain.1
      exact List.mem_cons_of_mem _ (ih chain.2)

theorem chain_not_circular (chain : Chain next p xs) : ¬ Circular next p := by
  rintro ⟨x,reaches,again⟩
  obtain ⟨before,after,rfl⟩ := List.append_of_mem (chain_reaches chain reaches)
  obtain ⟨_,_,_,rest⟩ := (seg_append ..).mp chain
  have distinct := (List.nodup_append.mp (chain_nodup chain)).2.1
  exact (List.nodup_cons.mp distinct).1 (chain_reaches rest again)

theorem closed_circular (reaches : Reaches next p x) (closed : next x = some x) : Circular next p :=
  ⟨x,reaches,closed ▸ .head⟩

end BermudaOS.Lib.Chains
