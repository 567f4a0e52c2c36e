import BermudaOS.Lib.Program

/-! Watching the actions of programs. What is already known of all states of a run is
taken for granted here; a watch tells what each action has to keep to, of the states
around it and of what is left to do after it. -/
namespace BermudaOS.Lib.Program

/-- An action is taken in a state that is `ok` and leads to one that is `after`; `keeps` is
asked of it. -/
structure Watch (σ : Type) where
  ok : σ → Prop
  after : σ → Prop
  keeps : {β : Type} → σ → σ → Prog σ β → Prop
  onward : ∀ {β γ : Type} {s t : σ} {p : Prog σ β} (f : β → Prog σ γ), keeps s t p → keeps s t (p >>= f)

namespace Watch

variable {σ ι τ ρ α β : Type}

/-- All actions of the program keep to the watch, whatever interrupts and, while it is
without the processor, other threads do. -/
def Heeds (S : System σ ι τ ρ) (W : Watch σ) : Prog σ α → (α → σ → Prop) → σ → Prop
  | .ret a,post,s => post a s
  | .step update next,post,s => ∀ t, Relation.ReflTransGen S.interrupt s t → W.ok t → W.after (update t) →
      W.keeps t (update t) (next t) ∧ Heeds S W (next t) post (update t)
  | .switch next,post,_ => ∀ t, W.ok t → Heeds S W next post t
  | _,_,_ => True

section Rules

variable {S : System σ ι τ ρ} {W : Watch σ} {s t : σ}

theorem heeds_mono {p : Prog σ α} {post other : α → σ → Prop} (heeds : Heeds S W p post s)
    (weaker : ∀ a t, post a t → other a t) : Heeds S W p other s := by
  induction p generalizing s with
  | ret a => exact weaker a s heeds
  | fault | exit => trivial
  | step update next ih =>
    intro t irq known after
    obtain ⟨keeps,rest⟩ := heeds t irq known after
    exact ⟨keeps,ih t rest⟩
  | switch next ih => exact fun t known => ih (heeds t known)

theorem heeds_bind {p : Prog σ α} {f : α → Prog σ β} {post : β → σ → Prop}
    (heeds : Heeds S W p (fun a t => Heeds S W (f a) post t) s) : Heeds S W (p >>= f) post s := by
  change Heeds S W (p.bind f) post s
  induction p generalizing s with
  | ret a => exact heeds
  | fault | exit => trivial
  | step update next ih =>
    intro t irq known after
    obtain ⟨keeps,rest⟩ := heeds t irq known after
    exact ⟨W.onward f keeps,ih t rest⟩
  | switch next ih => exact fun t known => ih (heeds t known)

theorem heeds_irq {p : Prog σ α} (heeds : Heeds S W p (fun _ _ => True) s) (irq : S.interrupt s t) :
    Heeds S W p (fun _ _ => True) t := by
  cases p with
  | ret a => trivial
  | fault | exit => trivial
  | step update next => exact fun u more => heeds u (.head irq more)
  | switch next => exact heeds

/-- The program never gives up the processor, and its actions do not change what `f` reads. -/
def Steady (f : σ → β) : Prog σ α → Prop
  | .step update next => ∀ s, f (update s) = f s ∧ Steady f (next s)
  | .switch _ => False
  | _ => True

theorem steady_bind {γ : Type} {f : σ → γ} {p : Prog σ α} {q : α → Prog σ β} (steady : Steady f p)
    (rest : ∀ a, Steady f (q a)) : Steady f (p >>= q) := by
  change Steady f (p.bind q)
  induction p with
  | ret a => exact rest a
  | fault | exit => trivial
  | step update next ih => exact fun s => ⟨(steady s).1,ih s (steady s).2⟩
  | switch next => exact steady

theorem steady_access {γ : Type} {f : σ → γ} {update : σ → σ} {read : σ → α}
    (same : ∀ s, f (update s) = f s) : Steady f (.access update read) := fun s => ⟨same s,trivial⟩

theorem interrupts_keep {P : σ → Prop} (irq : ∀ s t, S.interrupt s t → P s → P t)
    (irqs : Relation.ReflTransGen S.interrupt s t) (holds : P s) : P t := by
  induction irqs with
  | refl => exact holds
  | tail _ one ih => exact irq _ _ one ih

theorem heeds_steady {γ : Type} {f : σ → γ} {p : Prog σ α} {post : α → σ → Prop} (heeds : Heeds S W p post s)
    (steady : Steady f p) (irq : ∀ s t, S.interrupt s t → f t = f s) :
    Heeds S W p (fun a t => post a t ∧ f t = f s) s := by
  have still {s t : σ} (irqs : Relation.ReflTransGen S.interrupt s t) : f t = f s :=
    interrupts_keep (P := fun u => f u = f s) (fun _ _ one same => (irq _ _ one).trans same) irqs rfl
  induction p generalizing s with
  | ret a => exact ⟨heeds,rfl⟩
  | fault | exit => trivial
  | step update next ih =>
    intro t irqs known after
    obtain ⟨keeps,rest⟩ := heeds t irqs known after
    obtain ⟨same,onward⟩ := steady t
    refine ⟨keeps,heeds_mono (ih t rest onward) fun a v holds => ?_⟩
    exact ⟨holds.1,holds.2.trans (same.trans (still irqs))⟩
  | switch next => exact steady.elim

/-- What the watched actions and the interrupts keep still holds in the end. -/
theorem heeds_keep {p : Prog σ α} {post : α → σ → Prop} {P : σ → Prop} (heeds : Heeds S W p post s)
    (straight : Steady (fun _ => ()) p) (irq : ∀ s t, S.interrupt s t → P s → P t)
    (kept : ∀ {β : Type} (s t : σ) (q : Prog σ β), W.keeps s t q → P s → P t) (holds : P s) :
    Heeds S W p (fun a t => post a t ∧ P t) s := by
  induction p generalizing s with
  | ret a => exact ⟨heeds,holds⟩
  | fault | exit => trivial
  | step update next ih =>
    intro t irqs known after
    obtain ⟨keeps,rest⟩ := heeds t irqs known after
    have now := interrupts_keep irq irqs holds
    exact ⟨keeps,ih t rest (straight t).2 (kept _ _ _ keeps now)⟩
  | switch next => exact straight.elim

end Rules

/-- The call of a thread that has the processor, or waits for it. -/
def Tracked (S : System σ ι τ ρ) (W : Watch σ) (c : Config σ ι τ ρ) (i : ι) (p : Prog σ ρ) : Prop :=
  (i = c.running → Heeds S W p (fun _ _ => True) c.state) ∧
    (i ≠ c.running → ∀ s, W.ok s → Heeds S W p (fun _ _ => True) s)

theorem tracked_act {S : System σ ι τ ρ} {W : Watch σ} {c : Config σ ι τ ρ} {update : σ → σ}
    {next : σ → Prog σ ρ} (tracked : W.Tracked S c c.running (.step update next)) (now : W.ok c.state)
    (later : W.after (update c.state)) : W.keeps c.state (update c.state) (next c.state) :=
  (tracked.1 rfl _ .refl now later).1

section Runs

variable [DecidableEq ι] {S : System σ ι τ ρ} {W : Watch σ} {c d : Config σ ι τ ρ} {i : ι} {b : Call σ τ ρ}

theorem tracked_step (step : Step S c d) (now : i = c.running → W.ok c.state)
    (later : W.after d.state) (back : i = d.running → W.ok d.state) (tracked : ∀ a, c.call i = some a → W.Tracked S c i a.rest)
    (call : d.call i = some b) : W.Tracked S d i b.rest ∨ i = c.running ∧ c.call i = none := by
  cases step with
  | interrupt irq =>
    have before := tracked b call
    exact .inl ⟨fun same => heeds_irq (before.1 same) irq,before.2⟩
  | @call op idle allowed =>
    by_cases same : i = c.running
    · exact .inr ⟨same,same ▸ idle⟩
    · exact .inl (tracked b ((Function.update_of_ne same _ _).symm.trans call))
  | @act op entry update next busy =>
    by_cases same : i = c.running
    · subst same
      dsimp only at call
      rw [Function.update_self] at call
      obtain rfl := Option.some.inj call
      obtain ⟨_,rest⟩ := (tracked _ busy).1 rfl _ .refl (now rfl) later
      exact .inl ⟨fun _ => rest,fun other => absurd rfl other⟩
    · have before := tracked b ((Function.update_of_ne same _ _).symm.trans call)
      exact .inl ⟨fun equal => absurd equal same,before.2⟩
  | @switch op entry next busy =>
    by_cases same : i = c.running
    · subst same
      dsimp only at call back
      rw [Function.update_self] at call
      obtain rfl := Option.some.inj call
      have rest := (tracked _ busy).1 rfl
      exact .inl ⟨fun again => rest _ (back again),fun _ => rest⟩
    · have before := tracked b ((Function.update_of_ne same _ _).symm.trans call)
      exact .inl ⟨fun again => before.2 same _ (back again),fun _ => before.2 same⟩
  | @ret op entry result busy =>
    by_cases same : i = c.running
    · subst same
      dsimp only at call
      rw [Function.update_self] at call
      cases call
    · exact .inl (tracked b ((Function.update_of_ne same _ _).symm.trans call))

end Runs

end Watch

end BermudaOS.Lib.Program
