import BermudaOS.Lib.Clients

/-! Rely and guarantee for the code of drivers. Between two calls of the system below a
thread meets only interrupts; while it is in a call the other threads may act. What the
code of each call needs of both is checked along the code, once for all interleavings. -/
namespace BermudaOS.Lib.Clients
open Program

/-- What a call of a driver may meet and must keep, by the number of accesses and calls
it has made: `env` is what interrupts do, `rely` what happens during its calls, `admits`
and `returns` are what its own steps may assume, `guar` is what they do. -/
structure Terms (δ τ ρ ν : Type) where
  env : δ → δ → Prop
  rely : Nat → δ → δ → Prop
  admits : Nat → δ → Prop
  returns : Nat → ρ → Prop
  asks : τ → Prop
  guar : Nat → δ → δ → Prop
  post : δ → ν → Prop
  crash : Prop
  env_refl : ∀ d, env d d
  env_trans : ∀ {c d e}, env c d → env d e → env c e
  env_rely : ∀ pc {d e}, env d e → rely pc d e
  rely_trans : ∀ pc {c d e}, rely pc c d → rely pc d e → rely pc c e

section Safe

variable {δ τ ρ ν : Type}

def Code.Safe (T : Terms δ τ ρ ν) : Code δ τ ρ ν → Nat → δ → Prop
  | .ret v,_,d => ∀ e, T.env d e → T.post e v
  | .fault,_,_ => T.crash
  | .act update next,pc,d => ∀ e, T.env d e → T.admits pc e →
      T.guar pc e (update e) ∧ (next e).Safe T (pc + 1) (update e)
  | .call op next,pc,d => T.asks op ∧ ∀ e r, T.rely pc d e → T.returns pc r →
      (next r).Safe T (pc + 1) e

variable {T : Terms δ τ ρ ν} {c : Code δ τ ρ ν} {pc : Nat} {d e : δ}

theorem safe_env (safe : c.Safe T pc d) (env : T.env d e) : c.Safe T pc e := by
  cases c with
  | ret v => exact fun f more => safe f (T.env_trans env more)
  | fault => exact safe
  | act update next => exact fun f more => safe f (T.env_trans env more)
  | call op next => exact ⟨safe.1,fun f r later => safe.2 f r (T.rely_trans pc (T.env_rely pc env) later)⟩

theorem safe_rely {op : τ} {next : ρ → Code δ τ ρ ν} (safe : (Code.call op next).Safe T pc d)
    (rely : T.rely pc d e) : (Code.call op next).Safe T pc e :=
  ⟨safe.1,fun f r later => safe.2 f r (T.rely_trans pc rely later)⟩

end Safe

variable {σ ι τ ρ δ κ ν : Type} {S : System σ ι τ ρ} {D : Drivers σ ι τ ρ δ κ ν}
  {may : Machine σ ι τ ρ δ κ ν → Machine σ ι τ ρ δ κ ν → Prop} {T : ι → κ → δ → Terms δ τ ρ ν}
  {inv : δ → Prop} {m n : Machine σ ι τ ρ δ κ ν}

/-- A call is safe at the place in its code, and so are all others; only threads in calls
of the system below wait for the processor. -/
structure AllSafe (D : Drivers σ ι τ ρ δ κ ν) (T : ι → κ → δ → Terms δ τ ρ ν) (inv : δ → Prop)
    (m : Machine σ ι τ ρ δ κ ν) : Prop where
  inv : inv m.dev
  safe : ∀ i j, m.job i = some j → j.rest.Safe (T i j.op j.entry) j.pc m.dev
  parked : ∀ i, i ≠ m.running → (m.job i).isSome → (m.kernel.call i).isSome
  begun : ∀ i j, m.job i = some j → D.begins i j.op

/-- The terms fit together: interrupts keep to every `env`, the code of each call is safe
when it begins, what a step of a call guarantees is what the other calls rely on, and
the steps that `may` admits are those that the calls admit. -/
structure Compatible (D : Drivers σ ι τ ρ δ κ ν)
    (may : Machine σ ι τ ρ δ κ ν → Machine σ ι τ ρ δ κ ν → Prop) (T : ι → κ → δ → Terms δ τ ρ ν)
    (inv : δ → Prop) : Prop where
  irq : ∀ s t d e, D.interrupt (s,d) (t,e) → inv d → inv e ∧ ∀ i k f, (T i k f).env d e
  body : ∀ i k d, D.begins i k → inv d → (D.body i k).Safe (T i k d) 0 d
  admits : ∀ m n j update next, may m n → m.job m.running = some j → j.rest = .act update next →
    n.job m.running = some ⟨j.op,j.entry,j.pc + 1,next m.dev⟩ → (T m.running j.op j.entry).admits j.pc m.dev
  returns : ∀ m n j op next below r, may m n → m.job m.running = some j → j.rest = .call op next →
    returning m.kernel = some (below,r) → n.job m.running = some ⟨j.op,j.entry,j.pc + 1,next r⟩ →
    (T m.running j.op j.entry).returns j.pc r
  keeps : ∀ i k f pc d e, (T i k f).guar pc d e → inv d → inv e
  others : ∀ m n i j l, may m n → m.job m.running = some j → m.job i = some l → i ≠ m.running →
    (∃ rest, n.job m.running = some ⟨j.op,j.entry,j.pc + 1,rest⟩) → AllSafe D T inv m →
    (T m.running j.op j.entry).guar j.pc m.dev n.dev → (T i l.op l.entry).rely l.pc m.dev n.dev

theorem AllSafe.asks (all : AllSafe D T inv m) {op : τ} (ask : m.Asks op) :
    ∃ j : Job δ τ ρ κ ν, D.begins m.running j.op ∧ (T m.running j.op j.entry).asks op := by
  obtain ⟨_,k,entry,pc,next,job⟩ := ask
  exact ⟨_,all.begun _ _ job,(all.safe _ _ job).1⟩

variable [DecidableEq ι]

theorem advance_parked {c : Config σ ι τ ρ} {i : ι} (parked : i ≠ c.running → (c.call i).isSome)
    (other : i ≠ (advance S c).running) (onward : returning c = none) : ((advance S c).call i).isSome := by
  by_cases same : i = c.running
  · subst same
    cases busy : c.call c.running with
    | none =>
      unfold advance at other
      rw [busy] at other
      exact absurd rfl other
    | some b =>
      obtain ⟨a,still,_⟩ := advance_still (S := S) busy onward
      rw [still]
      exact rfl
  · rw [advance_other same]
    exact parked same

/-- A step keeps all calls safe. -/
theorem safe_step (compatible : Compatible D may T inv) (matching : Matching D m) (all : AllSafe D T inv m)
    (step : Step S D m n) (admitted : may m n) : AllSafe D T inv n := by
  have whole := all
  obtain ⟨holds,safe,parked,begun⟩ := all
  have begun_kept {entry : δ} {pc : Nat} {rest : Code δ τ ρ ν} (k : κ) (begins : D.begins m.running k)
      (i : ι) (j : Job δ τ ρ κ ν) (again : (m.setJob (some ⟨k,entry,pc,rest⟩)).job i = some j) :
      D.begins i j.op := by
    by_cases same : i = m.running
    · subst same
      obtain rfl := Option.some.inj ((m.setJob_self _).symm.trans again)
      exact begins
    · exact begun i j ((m.setJob_other _ same).symm.trans again)
  cases step with
  | interrupt irq =>
    obtain ⟨kept,env⟩ := compatible.irq _ _ _ _ irq holds
    exact ⟨kept,fun i j job => safe_env (safe i j job) (env i j.op j.entry),parked,begun⟩
  | inside busy onward =>
    exact ⟨holds,safe,fun i other job => advance_parked (fun away => parked i away job) other onward,begun⟩
  | @resume k entry pc op next below r returns job =>
    have result := compatible.returns _ _ _ _ _ _ _ admitted job rfl returns (m.setJob_self _)
    have state : (advance S m.kernel).running = m.running := by rw [advance_returned returns]
    refine ⟨holds,fun i j again => ?_,fun i other present => ?_,begun_kept k (begun _ _ job)⟩
    · by_cases same : i = m.running
      · subst same
        obtain rfl := Option.some.inj ((m.setJob_self _).symm.trans again)
        let T := T m.running k entry
        exact (safe _ _ job).2 _ _ (T.env_rely pc (T.env_refl _)) result
      · exact safe i j ((m.setJob_other _ same).symm.trans again)
    · have away : i ≠ m.running := fun same => other (same.trans state.symm)
      rw [show (m.setJob _).job i = m.job i from m.setJob_other _ away] at present
      rw [show (advance S m.kernel).call i = m.kernel.call i from advance_other away]
      exact parked i away present
  | @leave below r returns free =>
    have state : (advance S m.kernel).running = m.running := by rw [advance_returned returns]
    refine ⟨holds,safe,fun i other present => ?_,begun⟩
    have away : i ≠ m.running := fun same => other (same.trans state.symm)
    rw [show (advance S m.kernel).call i = m.kernel.call i from advance_other away]
    exact parked i away present
  | invoke above | call above =>
    refine ⟨holds,safe,fun i other present => ?_,begun⟩
    rw [show (invoke S _ m.kernel).call i = m.kernel.call i from Function.update_of_ne other _ _]
    exact parked i other present
  | @begin k above free begins =>
    refine ⟨holds,fun i j again => ?_,fun i other present => ?_,begun_kept k begins⟩
    · by_cases same : i = m.running
      · subst same
        obtain rfl := Option.some.inj ((m.setJob_self _).symm.trans again)
        exact compatible.body _ _ _ begins holds
      · exact safe i j ((m.setJob_other _ same).symm.trans again)
    · exact parked i other (by rwa [m.setJob_other _ other] at present)
  | @act k entry pc update next above job =>
    have admits := compatible.admits _ _ _ _ _ admitted job rfl (m.setJob_self _)
    obtain ⟨guar,onward⟩ := safe _ _ job _ ((T m.running k entry).env_refl _) admits
    refine ⟨compatible.keeps _ _ _ _ _ _ guar holds,fun i j again => ?_,fun i other present => ?_,
      begun_kept k (begun _ _ job)⟩
    · by_cases same : i = m.running
      · subst same
        obtain rfl := Option.some.inj ((m.setJob_self _).symm.trans again)
        exact onward
      · have before : m.job i = some j := (m.setJob_other _ same).symm.trans again
        obtain ⟨b,busy⟩ := Option.isSome_iff_exists.mp (parked i same (by rw [before]; rfl))
        obtain ⟨after,code⟩ := matching.asked i b j busy before
        have others := compatible.others _ _ i _ j admitted job before same ⟨_,m.setJob_self _⟩ whole guar
        have held := safe i j before
        rw [code] at held ⊢
        exact safe_rely held others
    · exact parked i other (by rwa [m.setJob_other _ other] at present)
  | finish above job =>
    refine ⟨holds,fun i j again => ?_,fun i other present => ?_,fun i j again => ?_⟩
    · by_cases same : i = m.running
      · subst same
        cases (m.setJob_self _).symm.trans again
      · exact safe i j ((m.setJob_other _ same).symm.trans again)
    · exact parked i other (by rwa [m.setJob_other _ other] at present)
    · by_cases same : i = m.running
      · subst same
        cases (m.setJob_self _).symm.trans again
      · exact begun i j ((m.setJob_other _ same).symm.trans again)

/-- The devices change by an interrupt, or by what the call of the running thread
guarantees. -/
theorem guar_step (compatible : Compatible D may T inv) (all : AllSafe D T inv m) (step : Step S D m n)
    (admitted : may m n) :
    n.dev = m.dev ∨ D.interrupt (m.kernel.state,m.dev) (n.kernel.state,n.dev) ∨
      ∃ j, m.job m.running = some j ∧ (T m.running j.op j.entry).guar j.pc m.dev n.dev := by
  cases step with
  | interrupt irq => exact .inr (.inl irq)
  | @act k entry pc update next above job =>
    have admits := compatible.admits _ _ _ _ _ admitted job rfl (m.setJob_self _)
    obtain ⟨guar,_⟩ := all.safe _ _ job _ ((T m.running k entry).env_refl _) admits
    exact .inr (.inr ⟨_,job,guar⟩)
  | _ => exact .inl rfl

end BermudaOS.Lib.Clients
