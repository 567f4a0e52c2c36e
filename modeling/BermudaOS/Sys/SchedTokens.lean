import BermudaOS.Lib.Watch
import BermudaOS.Sys.SchedOwners

/-! The event that is pending on a queue. No call that is about other queues takes it
away, but by posting it: then `BermudaEventSignalRaw` wakes the first waiter next. -/
namespace BermudaOS.Sys.Sched
open VirtTimer Lib.Chains Lib.Program

/-- The code creates a thread, or is about to join the queue, or neither. -/
inductive Mode
  | creates
  | enters
  | plain

/-- The mode of a call that is about other queues. -/
def Op.mode : Op → Mode
  | .bermudaThreadCreate .. => .creates
  | _ => .plain

variable {u : Usage} {L : Lists} {R : Rest} {k l : Kernel} {q p t x n : Addr} {r : Ref} {mode : Mode} {α β : Type}

/-- The queue is signaled, or its first waiter has events pending. -/
def Pending (q : Addr) (k : Kernel) : Prop :=
  k.link (.event q) = signaled ∨ ∃ t, k.link (.event q) = some t ∧ (k.thread t).ec ≠ 0

/-- A thread is linked in the queue. -/
def Joined (q : Addr) (k : Kernel) : Prop :=
  k.link (.event q) ≠ none ∧ k.link (.event q) ≠ signaled

/-- The program is in `BermudaEventSignalRaw` for the queue, before the action that takes
the first waiter out. -/
inductive Delivering (q : Addr) (k : Kernel) : {β : Type} → Code β → Prop
  | signal {β : Type} (f : Int → Code β) : Delivering q k (bermudaEventSignalRaw (.event q) >>= f)
  | detach {β : Type} (t : Addr) (f : Unit → Code β) (first : k.link (.event q) = some t) :
      Delivering q k (Prog.act (fun k => (detach (.event q) t k).handOver (.event q) t) >>= f)

theorem Delivering.onward {p : Code α} (delivering : Delivering q k p) (f : α → Code β) :
    Delivering q k (p >>= f) := by
  cases delivering with
  | signal g =>
    rw [Prog.bind_assoc]
    exact .signal _
  | detach t g first =>
    rw [Prog.bind_assoc]
    exact .detach t _ first

/-- What an action leaves of the event pending on a queue. -/
structure Kept (q : Addr) (mode : Mode) (k l : Kernel) (p : Code β) : Prop where
  pending : Pending q k → Pending q l ∨ mode ≠ .enters ∧ Delivering q l p
  fresh : Pending q l → Pending q k
  joined : Joined q l → Joined q k

def tokens (u : Usage) (q : Addr) (mode : Mode) : Watch Kernel where
  ok k := (∃ L R, At u L R k) ∧ (mode ≠ .creates → k.creating = none)
  after k := ∃ L R, At u L R k
  keeps k l p := Kept q mode k l p ∧ (mode ≠ .creates → l.creating = none)
  onward f kept := by
    refine ⟨⟨fun before => ?_,kept.1.fresh,kept.1.joined⟩,kept.2⟩
    exact (kept.1.pending before).imp id fun delivers => ⟨delivers.1,delivers.2.onward f⟩

/-- The scheduler, where no interrupt makes the count of the queue wrap. -/
def counting (u : Usage) (q : Addr) : System Kernel Addr Op Int :=
  {scheduler u with interrupt := fun k l => Irq u k l ∧ (Pending q k → Pending q l)}

/-- All actions of the program keep the event pending on the queue. -/
def Minds (u : Usage) (q : Addr) (mode : Mode) (p : Code α) (post : α → Kernel → Prop) (k : Kernel) : Prop :=
  (tokens u q mode).Heeds (counting u q) p post k

/-- Wherever the program begins. -/
def Mild (u : Usage) (q : Addr) (mode : Mode) (p : Code α) : Prop :=
  ∀ k, Minds u q mode p (fun _ _ => True) k

section Rules

theorem counted_at (here : At u L R k) (irqs : Relation.ReflTransGen (counting u q).interrupt k l) :
    At u L R l ∧ Calm u k.links l.links := by
  apply irqs_at here
  exact irqs.lift id fun _ _ irq => irq.1

theorem counted_pending (irqs : Relation.ReflTransGen (counting u q).interrupt k l)
    (pending : Pending q k) : Pending q l := by
  induction irqs with
  | refl => exact pending
  | tail _ irq ih => exact irq.2 ih

theorem pending_still (word : l.link (.event q) = k.link (.event q))
    (count : ∀ t, t ≠ nowhere → k.link (.event q) = some t → (l.thread t).ec = (k.thread t).ec) :
    (Pending q l ↔ Pending q k) ∧ (Joined q l → Joined q k) := by
  unfold Pending Joined
  rw [word]
  refine ⟨?_,id⟩
  by_cases signal : k.link (.event q) = signaled
  · simp [signal]
  · simp only [signal,false_or]
    apply exists_congr
    intro t
    apply and_congr_right
    intro first
    rw [count t (fun last => signal (first.trans (congrArg some last))) first]

theorem kept_same {p : Code β} (pending : Pending q l ↔ Pending q k) (joined : Joined q l → Joined q k) :
    Kept q mode k l p := ⟨fun waits => .inl (pending.mpr waits),pending.mp,joined⟩

theorem kept_still {p : Code β} (word : l.link (.event q) = k.link (.event q))
    (count : ∀ t, t ≠ nowhere → k.link (.event q) = some t → (l.thread t).ec = (k.thread t).ec) :
    Kept q mode k l p := by
  obtain ⟨pending,joined⟩ := pending_still word count
  exact kept_same pending joined

theorem kept_links {p : Code β} (links : l.links = k.links) : Kept q mode k l p :=
  kept_still (congrFun (congrArg Links.link links) _) fun t _ _ => congrFun (congrArg Links.ec links) t

/-- An action, where nothing is known of the states before. -/
theorem minds_act {update : Kernel → Kernel} {read : Kernel → α} {post : α → Kernel → Prop}
    (age : ∀ l, l.creating = none → (update l).creating = none)
    (next : ∀ L R l, At u L R l → (mode ≠ .creates → l.creating = none) → (∃ M Q, At u M Q (update l)) →
      Relation.ReflTransGen (counting u q).interrupt k l →
      Kept q mode l (update l) (.ret (read l) : Code α) ∧ post (read l) (update l)) :
    Minds u q mode (.access update read) post k := by
  intro l irqs known after
  obtain ⟨⟨L,R,here⟩,young⟩ := known
  obtain ⟨kept,holds⟩ := next L R l here young after irqs
  exact ⟨⟨kept,fun is => age l (young is)⟩,holds⟩

theorem minds_at {update : Kernel → Kernel} {read : Kernel → α} {post : α → Kernel → Prop}
    (here : At u L R k) (age : ∀ l, l.creating = none → (update l).creating = none)
    (next : ∀ l, At u L R l → Relation.ReflTransGen (counting u q).interrupt k l →
      Calm u k.links l.links → (∃ M Q, At u M Q (update l)) →
      Kept q mode l (update l) (.ret (read l) : Code α) ∧ post (read l) (update l)) :
    Minds u q mode (.access update read) post k := by
  intro l irqs known after
  obtain ⟨there,calm⟩ := counted_at here irqs
  obtain ⟨kept,holds⟩ := next l there irqs calm after
  exact ⟨⟨kept,fun is => age l (known.2 is)⟩,holds⟩

theorem minds_get {read : Kernel → α} {post : α → Kernel → Prop} (here : At u L R k)
    (next : ∀ l, At u L R l → Relation.ReflTransGen (counting u q).interrupt k l →
      Calm u k.links l.links → post (read l) l) : Minds u q mode (.get read) post k := by
  apply minds_at here fun _ => id
  exact fun l there irqs calm _ => ⟨kept_links rfl,next l there irqs calm⟩

theorem minds_first {read : Kernel → α} {post : α → Kernel → Prop}
    (next : ∀ L R l, At u L R l → (mode ≠ .creates → l.creating = none) →
      Relation.ReflTransGen (counting u q).interrupt k l → post (read l) l) :
    Minds u q mode (.get read) post k := by
  apply minds_act fun _ => id
  exact fun L R l here young _ irqs => ⟨kept_links rfl,next L R l here young irqs⟩

theorem minds_bind {p : Code α} {f : α → Code β} {post : β → Kernel → Prop}
    (minds : Minds u q mode p (fun a l => Minds u q mode (f a) post l) k) :
    Minds u q mode (p >>= f) post k :=
  Watch.heeds_bind minds

theorem mild_bind {p : Code α} {f : α → Code β} (first : Mild u q mode p)
    (rest : ∀ a, Mild u q mode (f a)) : Mild u q mode (p >>= f) := by
  intro k
  apply minds_bind
  exact Watch.heeds_mono (first k) fun a l _ => rest a l

theorem mild_pure (a : α) : Mild u q mode (pure a : Code α) := fun _ => trivial

theorem mild_fault : Mild u q mode (.fault : Code α) := fun _ => trivial

theorem mild_get (read : Kernel → α) : Mild u q mode (.get read) := by
  intro k
  apply minds_first
  exact fun _ _ _ _ _ _ => trivial

theorem mild_still {update : Kernel → Kernel} {read : Kernel → α}
    (age : ∀ k, k.creating = none → (update k).creating = none)
    (word : ∀ k, (update k).link (.event q) = k.link (.event q))
    (count : ∀ k t, ((update k).thread t).ec = (k.thread t).ec) : Mild u q mode (.access update read) := by
  intro k
  apply minds_act age
  exact fun L R l _ _ _ _ => ⟨kept_still (word l) fun t _ _ => count l t,trivial⟩

theorem mild_links {update : Kernel → Kernel} {read : Kernel → α}
    (age : ∀ k, k.creating = none → (update k).creating = none)
    (links : ∀ k, (update k).links = k.links) : Mild u q mode (.access update read) := by
  apply mild_still age
  · exact fun k => congrFun (congrArg Links.link (links k)) _
  · exact fun k t => congrFun (congrArg Links.ec (links k)) t

end Rules

section Queues

/-- The first waiter, whose `queue` is the queue it waits in. -/
theorem head_queue (here : At u L R k) (real : t ≠ nowhere) (first : k.link (.event q) = some t) :
    ∃ us, L.queue (.event q) = t::us ∧ (k.thread t).queue = some (.event q) := by
  rcases here.core.head (r := .event q) trivial with ⟨signal,_⟩ | ⟨_,head⟩
  · exact absurd (Option.some.inj (first.symm.trans signal)) real
  · obtain ⟨us,list⟩ := List.head?_eq_some_iff.mp (head.symm.trans first)
    exact ⟨us,list,here.core.queued (.event q) t (by simp [list])⟩

theorem head_other (here : At u L R k) (inside : x ∈ L.queue r) (other : r ≠ .event q)
    (real : t ≠ nowhere) (first : k.link (.event q) = some t) : t ≠ x := by
  intro same
  subst same
  obtain ⟨us,list,_⟩ := head_queue here real first
  exact other (here.core.alone r (.event q) t inside (by simp [list]))

theorem Calm.word {y z : Links} (calm : Calm u y z) (busy : y.link r ≠ none) : z.link r = y.link r := by
  cases r with
  | event p =>
    rcases calm.event p with same | ⟨_,free,_⟩
    · exact same
    · exact absurd free busy
  | _ => exact calm.link _ (by simp)

theorem spot_word {before : List Addr} (other : r ≠ .event q) : spot r before ≠ .event q := by
  rcases List.eq_nil_or_concat before with rfl | ⟨ahead,b,split⟩
  · exact other
  · rw [split,List.concat_eq_append,spot_append]
    simp

theorem place_word {c : Option Addr} (away : r ≠ .event q) :
    (place r c x k).link (.event q) = k.link (.event q) := by
  have word : ((k.setLink (.next x) c).setLink r (some x)).link (.event q) = k.link (.event q) := by
    simp [Kernel.setLink,Function.update_of_ne (Ne.symm away)]
  unfold place
  dsimp only
  split
  · exact word
  · split
    · exact word
    · exact word

theorem place_count {c : Option Addr} (own : t ≠ x) (behind : ∀ n, c = some n → t ≠ n) :
    ((place r c x k).thread t).ec = (k.thread t).ec := by
  unfold place
  dsimp only
  split
  · rfl
  · next n next =>
    have other : t ≠ n := by
      unfold Kernel.next Kernel.setLink at next
      by_cases same : r = .next x
      · subst same
        simp only [Function.update_self,Option.some.injEq] at next
        exact next ▸ own
      · simp only [Function.update_of_ne (Ne.symm same),Function.update_self] at next
        exact behind n next
    split
    · rfl
    · simp [Kernel.setEc,Kernel.setThread,Kernel.setLink,Function.update_of_ne other,
        Function.update_of_ne own]

theorem enterQueue_kept {p : Code β} (other : r ≠ .event q)
    (apart : ∀ t, t ≠ nowhere → k.link (.event q) = some t → t ≠ x) : Kept q mode k (enterQueue r x k) p := by
  unfold enterQueue
  split
  · apply kept_still
    · exact place_word other
    · intro t real first
      have own := apart t real first
      rw [place_count own (by simp)]
      simp [Kernel.setEc,Kernel.setThread,Function.update_of_ne own]
  · split
    · apply kept_still
      · exact place_word other
      · exact fun t real first => place_count (apart t real first) (by simp)
    · exact kept_links rfl

theorem place_creating {c : Option Addr} : (place r c x k).creating = k.creating := by
  unfold place
  dsimp only
  split
  · rfl
  · split
    · rfl
    · rfl

theorem enterQueue_creating : (enterQueue r x k).creating = k.creating := by
  unfold enterQueue
  split
  · exact place_creating
  · split
    · exact place_creating
    · rfl

theorem mild_add (queue : IsQueue r) (other : r ≠ .event q) :
    Mild u q mode (bermudaThreadPrioQueueAdd r x) := by
  intro k
  unfold bermudaThreadPrioQueueAdd
  apply minds_bind
  apply minds_act (fun _ _ => rfl)
  intro L₁ R₁ l₁ _ _ after _
  obtain ⟨L,R,here⟩ := after
  set m₁ := ((l₁.setEc x 0).setQueue x (some r)).stamp x with hm
  -- the thread now belongs to `r`, so it is not the first waiter
  have away {m : Kernel} (there : At u L R m) (calm : Calm u m₁.links m.links) (t : Addr)
      (real : t ≠ nowhere) (first : m.link (.event q) = some t) : t ≠ x := by
    intro same
    subst same
    obtain ⟨_,_,own⟩ := head_queue there real first
    have set : (m.thread t).queue = some r := by
      rw [show (m.thread t).queue = m₁.links.queue t from congrFun calm.queue t]
      simp [hm]
    exact other (Option.some.inj (set.symm.trans own))
  refine ⟨kept_still rfl fun t real first => ?_,?_⟩
  · have apart := away here (Calm.refl _) t real first
    simp [hm,Kernel.setEc,Kernel.setQueue,Kernel.stamp,Kernel.setThread,apart]
  clear_value m₁
  apply minds_bind
  apply minds_at here fun _ young => enterQueue_creating.trans young
  intro l there _ calm _
  refine ⟨enterQueue_kept other (away there calm),?_⟩
  split
  · trivial
  · next busy =>
    have same : enterQueue r x l = l := by
      unfold enterQueue
      rw [if_neg fun signal => busy (.inl signal),if_neg fun empty => busy (.inr empty)]
    rw [same]
    apply minds_bind
    apply minds_get there
    intro l₂ there₂ _ calm₂
    have word : l₂.link r = l.link r := calm₂.word fun empty => busy (.inr empty)
    have chain := there₂.core.chain r queue fun signal => busy (.inl (word.symm.trans signal))
    obtain ⟨before,after,list,walk,_⟩ := prioWalk_spot (r := r) (l₂.thread x).prio chain
      (there₂.core.length_le queue)
    rw [← word,show l₂.link r = l₂.links.link r from rfl,walk]
    apply minds_at there₂ fun _ young => place_creating.trans young
    intro l₃ there₃ _ calm₃ _
    refine ⟨kept_still (place_word (spot_word other)) fun t real first => place_count ?_ ?_,trivial⟩
    · exact away there₃ ((calm.trans calm₂).trans calm₃) t real first
    · intro n head
      apply head_other there₃ (r := r) _ other real first
      rw [list]
      exact List.mem_append_right _ (List.mem_of_head? head)

theorem mild_run : Mild u q mode (bermudaThreadPrioQueueAdd .bermudaRunQueue x) :=
  mild_add (r := .bermudaRunQueue) trivial (by simp)

theorem removeWalk_found {fuel : Nat} {p : Option Addr} {s : Ref} {ts : List Addr}
    (chain : Chain k.links.next p ts) (walk : removeWalk k x fuel r p = some (some s)) :
    x ∈ ts ∧ (s = r ∨ ∃ b, s = .next b) := by
  induction ts generalizing p r fuel with
  | nil =>
    obtain rfl : p = none := chain
    cases fuel <;> cases walk
  | cons b ts ih =>
    obtain ⟨rfl,rest⟩ := chain
    cases fuel with
    | zero => cases walk
    | succ fuel =>
      rw [removeWalk] at walk
      split at walk
      · next found =>
        obtain rfl := Option.some.inj (Option.some.inj walk)
        exact ⟨by simp [found],.inl rfl⟩
      · obtain ⟨inside,spot⟩ := ih rest walk
        refine ⟨List.mem_cons_of_mem _ inside,.inr ?_⟩
        rcases spot with rfl | spot
        · exact ⟨b,rfl⟩
        · exact spot

theorem mild_remove : Mild u q mode (bermudaThreadQueueRemove .bermudaRunQueue x) := by
  intro k
  unfold bermudaThreadQueueRemove
  apply minds_bind
  apply minds_first
  intro L R l here _ _
  split
  · trivial
  · next busy =>
    apply minds_bind
    apply minds_get here
    intro l₂ there _ calm
    have word : l₂.link .bermudaRunQueue = l.link .bermudaRunQueue := calm.link _ (by simp)
    split
    · trivial
    · trivial
    · next s walk =>
      rw [← word] at walk
      obtain ⟨inside,spot⟩ := removeWalk_found (there.core.chain .bermudaRunQueue trivial there.core.runWord) walk
      have away : s ≠ .event q := by
        rcases spot with rfl | ⟨b,rfl⟩
        · simp
        · simp
      have cut_creating (k : Kernel) : (cut s x k).creating = k.creating := by
        unfold cut
        dsimp only
        split
        · rfl
        · split
          · rfl
          · rfl
      apply minds_bind
      apply minds_at there fun k young => (cut_creating k).trans young
      intro l₃ there₃ _ calm₃ _
      have zero : (l₃.thread x).ec = 0 := there₃.core.run_ec inside
      have cut_link : cut s x l₃ = l₃.setLink s (l₃.next x) := by
        unfold cut
        exact if_pos zero
      rw [cut_link]
      refine ⟨kept_still (Function.update_of_ne (Ne.symm away) _ _) fun _ _ _ => rfl,?_⟩
      apply mild_still
      · exact fun _ young => young
      · intro k
        simp [Kernel.setLink,Kernel.setQueue,Kernel.setThread]
      · intro k t
        exact congrFun (congrArg Links.ec (Kernel.links_setQueue (k.setLink (.next x) none) x none)) t

theorem pending_listed {ws : List Addr} (head : k.link (.event q) ≠ signaled → k.link (.event q) = ws.head?) :
    Pending q k ↔ k.link (.event q) = signaled ∨ pending k.links ws ≠ 0 := by
  unfold Pending
  by_cases signal : k.link (.event q) = signaled
  · simp [signal]
  · rw [head signal]
    cases ws with
    | nil => simp [signaled,pending]
    | cons t ws => simp [pending,Kernel.links]

theorem pending_quiet (here : At u L R k) (still : Still k.links l.links q (L.queue (.event q))) :
    (Pending q l ↔ Pending q k) ∧ (Joined q l → Joined q k) := by
  apply pending_still
  · exact still.word
  · intro t real first
    obtain ⟨us,list,_⟩ := head_queue here real first
    have count := still.count
    rw [list] at count
    exact count

/-- A waiter leaves its queue, and events pending on it stay with the queue. -/
theorem detach_pending {before after : List Addr} (here : At u L R k)
    (list : L.queue (.event p) = before ++ x::after) :
    (Pending q (detach (spot (.event p) before) x k) ↔ Pending q k) ∧
      (Joined q (detach (spot (.event p) before) x k) → Joined q k) := by
  obtain ⟨rem,_⟩ := detach_removed here.core (r := .event p) trivial list
  by_cases same : p = q
  · subst same
    have busy := here.core.unsignaled (r := .event p) trivial (by simp [list])
    have word : k.link (.event p) = (before ++ x::after).head? := by
      rcases here.core.head (r := .event p) trivial with ⟨signal,_⟩ | ⟨_,head⟩
      · exact absurd signal busy
      · rw [← list]
        exact head
    obtain ⟨signal,chain,_⟩ := rem.chain_ec here.core list trivial
    obtain ⟨some_left,none_left⟩ := rem.carried here.core list trivial rfl
    have now := pending_listed fun _ => word
    have later := pending_listed (q := p) fun real => chain_head (chain real)
    refine ⟨⟨fun waits => ?_,fun waits => ?_⟩,fun _ => ⟨?_,busy⟩⟩
    · apply now.mpr
      apply Or.inr
      by_cases empty : before ++ after = []
      · have last := none_left empty
        rcases later.mp waits with signal | events
        · intro zero
          rw [if_pos zero] at last
          simpa [signaled] using last.symm.trans signal
        · rw [empty] at events
          exact absurd rfl events
      · rw [← some_left empty]
        exact (later.mp waits).resolve_left fun last => empty (signal last)
    · have events := (now.mp waits).resolve_left busy
      apply later.mpr
      by_cases empty : before ++ after = []
      · have last := none_left empty
        rw [if_neg events] at last
        exact .inl last
      · rw [some_left empty]
        exact .inr events
    · rw [word]
      cases before with
      | nil => simp
      | cons b before => simp
  · exact pending_quiet here (rem.still here.core list (by simpa using Ne.symm same))

theorem detach_kept {before after : List Addr} {code : Code β} (here : At u L R k)
    (list : L.queue (.event p) = before ++ x::after) :
    Kept q mode k (detach (spot (.event p) before) x k) code := by
  obtain ⟨pending,joined⟩ := detach_pending here list
  exact kept_same pending joined

end Queues

section Wake

theorem detach_creating : (detach r x k).creating = k.creating := by
  unfold detach
  dsimp only
  split
  · rfl
  · split
    · rfl
    · rfl

theorem mild_state (state : ThreadState) : Mild u q mode (Prog.act fun k => k.setState x state) :=
  mild_links (fun _ => id) fun k => Kernel.links_setState k x state

theorem mild_setTimer (timer : Option Addr) : Mild u q mode (Prog.act fun k => k.setTimer x timer) :=
  mild_links (fun _ => id) fun k => Kernel.links_setTimer k x timer

theorem mild_onTimers (f : Timers Callback → Option (Timers Callback)) : Mild u q mode (onTimers f) := by
  apply mild_bind
  · exact mild_links (fun _ => id) fun _ => rfl
  · intro ended
    split
    · exact mild_pure ()
    · exact mild_fault

theorem mild_cancelTimer : Mild u q mode (cancelTimer x) := by
  apply mild_bind (mild_get _)
  intro timer
  split
  · exact mild_bind (mild_onTimers _) fun _ => mild_setTimer none
  · exact mild_pure ()

/-- A queue is signaled that is another one, or has a waiter. -/
theorem minds_signal (fits : p ≠ q ∨ Joined q k) (here : At u L R k) :
    Minds u q mode (bermudaEventSignalRaw (.event p)) (fun _ _ => True) k := by
  unfold bermudaEventSignalRaw
  apply minds_bind
  apply minds_get here
  intro l there _ calm
  split
  · trivial
  · next busy =>
    split
    · next empty =>
      have other : p ≠ q := by
        rcases fits with other | joined
        · exact other
        · rintro rfl
          exact absurd ((calm.word joined.1).symm.trans empty) joined.1
      apply mild_bind
      · apply mild_still
        · exact fun _ young => young
        · exact fun k => Function.update_of_ne (by simpa using Ne.symm other) _ _
        · exact fun _ _ => rfl
      · exact fun _ => mild_pure _
    · next t word =>
      apply minds_bind
      refine minds_at there (fun _ young => ?_) fun l₂ there₂ _ calm₂ _ => ?_
      · exact detach_creating.trans young
      have still : l.links.link (.event p) ≠ none := fun empty => by simpa using word.symm.trans empty
      have first : l₂.link (.event p) = some t := (calm₂.word still).trans word
      have real : t ≠ nowhere := fun last => busy (word.trans (congrArg some last))
      obtain ⟨us,list,_⟩ := head_queue there₂ real first
      obtain ⟨pending,joined⟩ := detach_pending (q := q) there₂ (List.nil_append (t::us) ▸ list)
      refine ⟨kept_same pending joined,?_⟩
      apply mild_bind mild_cancelTimer
      intro _
      apply mild_bind (mild_state .ready)
      intro _
      exact mild_bind mild_run fun _ => mild_pure _

theorem mild_signal (other : p ≠ q) : Mild u q mode (bermudaEventSignalRaw (.event p)) := by
  intro k l _ known after
  obtain ⟨⟨L,R,here⟩,_⟩ := id known
  exact minds_signal (.inl other) here l .refl known after

theorem mild_eventTMO (timer : Addr) : Mild u q mode (bermudaEventTMO timer p) := by
  intro k
  unfold bermudaEventTMO
  apply minds_bind
  apply minds_first
  intro L R l here _ _
  split
  · trivial
  · next busy =>
    apply minds_bind
    apply minds_get here
    intro l₂ there _ calm
    by_cases empty : l.link (.event p) = none
    · rw [empty]
      trivial
    · have word : l₂.link (.event p) = l.link (.event p) := calm.word empty
      have chain := there.core.chain (.event p) trivial fun signal => busy (word.symm.trans signal)
      rw [show l₂.links.link (.event p) = l.link (.event p) from word] at chain
      rcases tmoWalk_spot (k := l₂) (r := .event p) timer chain (there.core.length_le (r := .event p) trivial) with
        ⟨walk,_⟩ | ⟨before,t,after,list,_,walk⟩
      · rw [walk]
        trivial
      · rw [walk]
        apply minds_bind
        apply minds_at there fun _ young => detach_creating.trans young
        intro l₃ there₃ _ _ _
        refine ⟨detach_kept there₃ list,?_⟩
        apply mild_bind (mild_state .ready)
        intro _
        exact mild_bind mild_run fun _ => mild_setTimer signaled

theorem mild_threadTimeout : Mild u q mode (bermudaThreadTimeout x) := by
  apply mild_bind
  · apply mild_links
    · exact fun _ young => young
    · exact fun k => (Kernel.links_setTimer (k.setState x .ready) x none).trans (Kernel.links_setState k x .ready)
  · exact fun _ => mild_run

theorem mild_elapse (timer : Addr) : Mild u q mode (elapse timer) := by
  apply mild_bind (mild_get _)
  intro handle
  dsimp only
  split
  · next h =>
    apply mild_bind (mild_get _)
    intro arg
    apply mild_bind _ fun _ => mild_onTimers _
    cases h with
    | bermudaThreadTimeout => exact mild_threadTimeout
    | bermudaEventTmo => exact mild_eventTMO timer
  · exact mild_onTimers _

theorem mild_timerLoop (fuel diff : Nat) : Mild u q mode (timerLoop fuel diff) := by
  induction fuel generalizing diff with
  | zero => exact mild_fault
  | succ fuel ih =>
    apply mild_bind (mild_get _)
    intro head
    split
    · exact mild_pure ()
    · next timer =>
      split
      · exact mild_pure ()
      · apply mild_bind
        · exact mild_links (fun _ => id) fun _ => rfl
        intro left
        apply mild_bind (mild_get _)
        intro elapsed
        dsimp only
        split
        · exact mild_bind (mild_elapse timer) fun _ => ih left
        · exact ih left

theorem mild_processTicks : Mild u q mode processTicks := by
  apply mild_bind (mild_get _)
  intro tick
  apply mild_bind (mild_get _)
  intro resume
  split
  · exact mild_pure ()
  · apply mild_bind
    · apply mild_bind (mild_get _)
      intro now
      apply mild_bind
      · exact mild_links (fun _ => id) fun _ => rfl
      · exact fun _ => mild_timerLoop _ _
    · exact fun _ => mild_links (fun _ => id) fun _ => rfl

/-- The total list is not changed by waking threads. -/
def total (k : Kernel) : Option Addr × (Addr → Option Addr) := (k.link .bermudaThreadHead,k.qNext)

theorem prioWalk_ref {prio fuel : Nat} {s : Ref} {c d : Option Addr}
    (walk : prioWalk k prio fuel r c = some (s,d)) : s = r ∨ ∃ b, s = .next b := by
  induction fuel generalizing r c with
  | zero =>
    cases c with
    | none => exact .inl (congrArg Prod.fst (Option.some.inj walk)).symm
    | some t => cases walk
  | succ fuel ih =>
    cases c with
    | none => exact .inl (congrArg Prod.fst (Option.some.inj walk)).symm
    | some t =>
      rw [prioWalk] at walk
      split at walk
      · rcases ih walk with rfl | spot
        · exact .inr ⟨t,rfl⟩
        · exact .inr spot
      · exact .inl (congrArg Prod.fst (Option.some.inj walk)).symm

theorem total_setLink {p : Option Addr} (head : r ≠ .bermudaThreadHead) (next : ∀ t, r ≠ .qNext t) :
    total (k.setLink r p) = total k := by
  unfold total Kernel.qNext Kernel.setLink
  simp [Ne.symm head,Function.update_of_ne (Ne.symm (next _))]

theorem total_queue (queue : IsQueue r) : r ≠ .bermudaThreadHead ∧ ∀ t, r ≠ .qNext t :=
  ⟨by rintro rfl; exact queue,by rintro t rfl; exact queue⟩

theorem total_place {s : Ref} {c : Option Addr} (queue : IsQueue r) (spot : s = r ∨ ∃ b, s = .next b) :
    total (place s c x k) = total k := by
  have away : s ≠ .bermudaThreadHead ∧ ∀ t, s ≠ .qNext t := by
    rcases spot with rfl | ⟨b,rfl⟩
    · exact total_queue queue
    · simp
  have links : total ((k.setLink (.next x) c).setLink s (some x)) = total k :=
    (total_setLink away.1 away.2).trans (total_setLink (by simp) (by simp))
  unfold place
  dsimp only
  split
  · exact links
  · split
    · exact links
    · exact links

theorem total_detach (queue : IsQueue r) : total (detach r x k) = total k := by
  obtain ⟨head,next⟩ := total_queue queue
  have links : total (k.setLink r (k.next x)) = total k := total_setLink head next
  unfold detach
  dsimp only
  split
  · exact links
  · split
    · exact links
    · exact (total_setLink head next).trans links

open Watch in
theorem steady_add (queue : IsQueue r) : Steady total (bermudaThreadPrioQueueAdd r x) := by
  unfold bermudaThreadPrioQueueAdd
  refine steady_bind (steady_access fun _ => rfl) fun _ => steady_bind (steady_access fun k => ?_) fun c => ?_
  · unfold enterQueue
    split
    · exact total_place queue (.inl rfl)
    · split
      · exact total_place queue (.inl rfl)
      · rfl
  · split
    · trivial
    · intro k
      refine ⟨rfl,?_⟩
      dsimp only
      cases walk : prioWalk k (k.thread x).prio addrLimit r c with
      | none => trivial
      | some found => exact steady_access fun m => total_place queue (prioWalk_ref walk)

open Watch in
theorem steady_signal : Steady total (bermudaEventSignalRaw (.event p)) := by
  have queue : IsQueue (.event p) := trivial
  unfold bermudaEventSignalRaw
  refine steady_bind (steady_access fun _ => rfl) fun c => ?_
  split
  · trivial
  split
  · refine steady_bind (steady_access fun k => ?_) fun _ => trivial
    exact total_setLink (total_queue queue).1 (total_queue queue).2
  · next t _ =>
    refine steady_bind (steady_access fun k => total_detach queue) fun _ => steady_bind ?_ fun _ => ?_
    · refine steady_bind (steady_access fun _ => rfl) fun timer => ?_
      split
      · refine steady_bind (steady_bind (steady_access fun _ => rfl) fun ended => ?_) fun _ =>
          steady_access fun _ => rfl
        split
        · trivial
        · trivial
      · trivial
    · refine steady_bind (steady_access fun _ => rfl) fun _ => ?_
      exact steady_bind (steady_add trivial) fun _ => trivial

theorem total_calm (calm : Calm u k.links l.links) : total l = total k := by
  unfold total
  rw [show l.link .bermudaThreadHead = k.link .bermudaThreadHead from calm.link _ (by simp)]
  exact congrArg _ calm.qNext

theorem total_irqs (irqs : Relation.ReflTransGen (counting u q).interrupt k l) : total l = total k := by
  induction irqs with
  | refl => rfl
  | tail _ irq ih =>
    refine Eq.trans ?_ ih
    cases irq.1 with
    | event p raised => exact total_calm (event_calm raised).1
    | tick => rfl
    | heap a => rfl

/-- An event leaves the queue where `BermudaEventSignalRaw` is called for it next. -/
theorem minds_postEvent (here : At u L R k) (known : x ∈ L.all) (grown : R.creating = none) :
    Minds u q .plain (postEvent x) (fun _ l => total l = total k) k := by
  unfold postEvent
  apply minds_bind
  apply minds_get here
  intro l there _ calm
  by_cases zero : (l.thread x).ec = 0
  · rw [if_pos zero]
    exact total_calm calm
  rw [if_neg zero]
  have old : L.newborn ≠ some x := by
    rw [here.young,grown]
    simp
  obtain ⟨p,us,list⟩ := there.core.counts x known old zero
  have inside : x ∈ L.queue (.event p) := by simp [list]
  apply minds_bind
  apply minds_get there
  intro l₂ there₂ irqs₂ calm₂
  rw [show (l₂.thread x).queue = some (.event p) from there₂.core.queued _ x inside]
  intro l₃ irqs₃ known₃ after
  obtain ⟨there₃,calm₃⟩ := counted_at there₂ irqs₃
  have first : l₃.link (.event p) = some x := there₃.core.first (r := .event p) trivial list
  have busy : l₃.link (.event p) ≠ signaled := there₃.core.unsignaled (r := .event p) trivial (by simp [list])
  set m := l₃.setEc x (((l₃.thread x).ec + 2^8 - 1) % 2^8) with hm
  have same : total m = total k :=
    (total_calm calm₃).trans ((total_calm calm₂).trans (total_calm calm))
  have young : m.creating = none := known₃.2 (by simp)
  obtain ⟨M,Q,now⟩ := after
  change (tokens u q .plain).keeps l₃ m (if l₃.link (.event p) = signaled then pure () else do
    let _ ← bermudaEventSignalRaw (.event p)) ∧ Minds u q .plain (if l₃.link (.event p) = signaled then pure () else do
    let _ ← bermudaEventSignalRaw (.event p)) _ m
  rw [if_neg busy]
  have signal (fits : p ≠ q ∨ Joined q m) : Minds u q .plain (do let _ ← bermudaEventSignalRaw (.event p))
      (fun _ l => total l = total k) m := by
    apply minds_bind
    refine Watch.heeds_mono (Watch.heeds_steady (minds_signal fits now) steady_signal fun s t irq => ?_) fun _ l holds => ?_
    · exact total_irqs (.single irq)
    · exact holds.2.trans same
  by_cases own : p = q
  · subst own
    refine ⟨⟨⟨fun _ => .inr ⟨by simp,.signal _⟩,fun _ => ?_,id⟩,fun _ => young⟩,signal (.inr ?_)⟩
    · have before : Pending p l := .inr ⟨x,there.core.first (r := .event p) trivial list,zero⟩
      exact counted_pending irqs₃ (counted_pending irqs₂ before)
    · exact ⟨fun empty => by simpa using first.symm.trans empty,busy⟩
  · have still : Still l₃.links m.links q (L.queue (.event q)) :=
      deliver_still there₃.core list (Kernel.links_setEc l₃ x _) (Ne.symm own)
    obtain ⟨pending,joined⟩ := pending_quiet there₃ still
    exact ⟨⟨kept_same pending joined,fun _ => young⟩,signal (.inl own)⟩

theorem minds_postEvents {fuel : Nat} {rest : List Addr} (here : At u L R k) (grown : R.creating = none)
    (suffix : ∃ done, L.all = done ++ rest) : Minds u q .plain (postEvents fuel rest.head?) (fun _ _ => True) k := by
  obtain ⟨done,all⟩ := suffix
  induction rest generalizing L R k fuel done with
  | nil =>
    unfold postEvents
    trivial
  | cons t rest ih =>
    cases fuel with
    | zero => trivial
    | succ fuel =>
      apply minds_bind
      apply Watch.heeds_mono (minds_postEvent here (by simp [all]) grown)
      intro _ l same
      apply minds_bind
      apply minds_first
      intro M Q l₂ there young irqs
      have total : total l₂ = total k := (total_irqs irqs).trans same
      obtain ⟨head,next⟩ := Prod.mk.inj total
      have chain : Chain l₂.qNext (l₂.link .bermudaThreadHead) M.all := there.core.all
      rw [head,next] at chain
      have list : M.all = done ++ t::rest := all ▸ chain_unique chain here.core.all
      have onward : l₂.qNext t = rest.head? := by
        rw [next]
        have old := here.core.all
        rw [all] at old
        obtain ⟨_,_,_,behind⟩ := (seg_append _ _ _ _ _).mp old
        exact chain_head behind
      rw [onward]
      apply ih there
      · rw [← there.rest]
        exact young (by simp)
      · show M.all = done ++ [t] ++ rest
        simp [list]

theorem mild_executeNew : Mild u q mode executeNew := by
  apply mild_bind (mild_get _)
  intro lost
  split
  · apply mild_bind
    · apply mild_links
      · intro k young
        unfold standBy
        split
        · exact young
        · exact young
      · exact standBy_links
    · intro _
      apply mild_bind (mild_get _)
      intro top
      split
      · exact mild_fault
      · exact fun _ _ _ => trivial
  · exact mild_pure ()

theorem mild_threadFree : Mild u q mode bermudaThreadFree := by
  intro k
  unfold bermudaThreadFree freeLoop
  apply minds_bind
  apply minds_first
  intro L R l here _ _
  rw [show l.link .bermudaKillQueue = none from here.core.kill]
  trivial

theorem mild_exec : Mild u q .plain bermudaSchedulerExec := by
  intro k
  apply minds_bind
  apply minds_first
  intro L R l here young _
  have head : l.link .bermudaThreadHead = L.all.head? := chain_head here.core.all
  rw [head]
  apply minds_bind
  have grown : R.creating = none := by
    rw [← here.rest]
    exact young (by simp)
  apply Watch.heeds_mono (minds_postEvents here grown ⟨[],rfl⟩)
  intro _ l _
  exact mild_bind mild_processTicks (fun _ => mild_bind mild_executeNew fun _ => mild_threadFree) l

end Wake

section Calls

theorem mild_self : Mild u q mode self := mild_get _

theorem mild_requeue : Mild u q mode requeue := by
  apply mild_bind mild_self
  intro t
  apply mild_bind (mild_get _)
  intro next
  split
  · exact mild_bind mild_remove fun _ => mild_run
  · exact mild_pure ()

theorem mild_yield : Mild u q .plain bermudaThreadYield := mild_bind mild_requeue fun _ => mild_exec

theorem mild_createTimer (ms : Nat) (fn : Callback) (arg : Addr) : Mild u q mode (createTimer ms fn arg) := by
  apply mild_bind (mild_get _)
  intro offer
  split
  · exact fun _ => trivial
  · apply mild_bind (mild_get _)
    intro now
    exact mild_bind (mild_onTimers _) fun _ => mild_pure _

theorem mild_waitTimer (tmo : Nat) : Mild u q mode (waitTimer p tmo) := by
  unfold waitTimer
  split
  · exact mild_pure _
  · exact mild_bind (mild_createTimer _ _ _) fun _ => mild_pure _

/-- What is left of `BermudaEventWait` when the thread is linked in the queue. -/
theorem mild_waited : Mild u q .plain (do
    bermudaSchedulerExec
    let late ← Prog.access (fun k => k.setWaiting k.bermudaCurrentThread none)
      fun k => decide ((k.thread k.bermudaCurrentThread).thTimer = signaled)
    if late then
      Prog.act fun k => k.setTimer k.bermudaCurrentThread none
      return (-1 : Int)
    return 0) := by
  apply mild_bind mild_exec
  intro _
  apply mild_bind
  · exact mild_links (fun _ young => young) fun _ => rfl
  intro late
  split
  · apply mild_bind
    · apply mild_links
      · exact fun _ young => young
      · exact fun k => Kernel.links_setTimer k _ none
    exact fun _ => mild_pure _
  · exact mild_pure _

theorem mild_sleep (ms : Nat) : Mild u q .plain (bermudaThreadSleep ms) := by
  apply mild_bind mild_self
  intro t
  apply mild_bind (mild_state .sleeping)
  intro _
  apply mild_bind mild_remove
  intro _
  apply mild_bind (mild_createTimer _ _ _)
  intro timer
  exact mild_bind (mild_setTimer _) fun _ => mild_yield

theorem mild_wait : Mild u q .plain bermudaThreadWait := by
  apply mild_bind mild_self
  intro t
  apply mild_bind mild_remove
  intro _
  exact mild_bind (mild_state .waiting) fun _ => mild_exec

theorem mild_notify (t : Option Addr) : Mild u q .plain (bermudaThreadNotify t) := by
  unfold bermudaThreadNotify
  cases t with
  | none => exact mild_yield
  | some t =>
    apply mild_bind (mild_get _)
    intro state
    dsimp only
    split
    · apply mild_bind (mild_state .ready)
      intro _
      exact mild_bind mild_run fun _ => mild_yield
    · exact mild_yield

theorem mild_switchTask : Mild u q mode bermudaSwitchTask := by
  apply mild_bind (mild_get _)
  intro top
  split
  · exact mild_fault
  · exact fun _ _ _ => trivial

theorem mild_setPrio {prio : Nat} (low : prio < bermudaLowestPrio) : Mild u q .plain (bermudaThreadSetPrio prio) := by
  apply mild_bind mild_self
  intro t
  apply mild_bind (mild_get _)
  intro ret
  apply mild_bind mild_remove
  intro _
  apply mild_bind
  · apply mild_still
    · exact fun _ young => young
    · exact fun _ => rfl
    · exact fun k s => congrFun (congrArg Links.ec (Kernel.links_setPrio k t prio)) s
  intro _
  dsimp only
  rw [if_pos low]
  apply mild_bind mild_run
  intro _
  apply mild_bind (mild_get _)
  intro lost
  split
  · apply mild_bind
    · apply mild_links
      · exact fun _ young => young
      · exact fun k => Kernel.links_setState k _ .ready
    intro _
    exact mild_bind mild_switchTask fun _ => mild_pure _
  · exact mild_pure _

theorem mild_create (name : List Char) (prio : Nat) : Mild u q .creates (bermudaThreadCreate x name prio) := by
  apply mild_bind
  · apply mild_still
    · exact fun _ young => young
    · intro k
      simp [bermudaThreadInit,Kernel.setLink,Kernel.setThread]
    · intro k t
      have field := Kernel.field_setThread k x Thread.ec fun th =>
        {th with prio := prio,state := .ready,name := name}
      rw [Function.update_eq_self] at field
      exact congrFun field t
  intro _
  apply mild_bind
  · intro k l _ _ _
    refine ⟨⟨kept_still ?_ fun _ _ _ => rfl,fun other => absurd rfl other⟩,trivial⟩
    simp [Kernel.setLink,Kernel.create]
  · exact fun _ => mild_run

theorem mild_settled (turned : Option (Addr × Bool)) :
    Mild u q mode (Prog.act fun k => k.setSettled k.bermudaCurrentThread turned) :=
  mild_links (fun _ young => young) fun _ => rfl

theorem mild_taken : Mild u q .plain (do
    bermudaThreadYield
    Prog.act fun k => k.setSettled k.bermudaCurrentThread none
    return (0 : Int)) := by
  apply mild_bind mild_yield
  intro _
  exact mild_bind (mild_settled none) fun _ => mild_pure _

theorem mild_linked (t : Addr) (tmo : Nat) : Mild u q .plain (do
    Prog.act fun k => k.setState t .sleeping
    let timer ← waitTimer p tmo
    Prog.act fun k => (k.setTimer t timer).setWaiting t (some p)
    bermudaSchedulerExec
    let late ← Prog.access (fun k => k.setWaiting k.bermudaCurrentThread none)
      fun k => decide ((k.thread k.bermudaCurrentThread).thTimer = signaled)
    if late then
      Prog.act fun k => k.setTimer k.bermudaCurrentThread none
      return (-1 : Int)
    return 0) := by
  apply mild_bind (mild_state .sleeping)
  intro _
  apply mild_bind (mild_waitTimer _)
  intro timer
  apply mild_bind
  · apply mild_links
    · exact fun _ young => young
    · exact fun k => Kernel.links_setTimer k t timer
  intro _
  exact mild_waited

theorem mild_eventWait (other : p ≠ q) (tmo : Nat) : Mild u q .plain (bermudaEventWait p tmo) := by
  have away : Ref.event p ≠ .event q := by simpa using other
  apply mild_bind (mild_get _)
  intro word
  apply mild_bind mild_self
  intro t
  split
  · apply mild_bind
    · apply mild_still
      · exact fun _ young => young
      · exact fun k => Function.update_of_ne (Ne.symm away) _ _
      · exact fun _ _ => rfl
    exact fun _ => mild_taken
  · apply mild_bind mild_remove
    intro _
    apply mild_bind (mild_add (r := .event p) trivial away)
    exact fun _ => mild_linked t tmo

theorem mild_body {i : Addr} {op : Op} (waits : op.waits ≠ some q) (signals : op.signals ≠ some q)
    (allowed : allowed u i op k) : Mild u q op.mode (body op) := by
  cases op with
  | bermudaThreadCreate t name prio => exact mild_bind (mild_create name prio) fun _ => mild_pure _
  | bermudaThreadSleep ms => exact mild_bind (mild_sleep ms) fun _ => mild_pure _
  | bermudaThreadSetPrio prio => exact mild_setPrio allowed.2
  | bermudaThreadYield => exact mild_bind mild_yield fun _ => mild_pure _
  | bermudaThreadWait => exact mild_bind mild_wait fun _ => mild_pure _
  | bermudaThreadNotify t => exact mild_bind (mild_notify t) fun _ => mild_pure _
  | bermudaThreadExit => exact allowed.elim
  | bermudaEventWait p tmo => exact mild_eventWait (fun same => waits (congrArg some same)) tmo
  | bermudaEventWaitNext p tmo =>
    cases p with
    | none => exact mild_pure _
    | some p =>
      have other : p ≠ q := fun same => waits (congrArg some same)
      apply mild_bind _ fun _ => mild_eventWait other tmo
      apply mild_still
      · intro k young
        split
        · exact young
        · exact young
      · intro k
        split
        · exact Function.update_of_ne (by simpa using Ne.symm other) _ _
        · rfl
      · intro k t
        split
        · rfl
        · rfl
  | bermudaEventSignal p =>
    have other : p ≠ q := fun same => signals (congrArg some same)
    apply mild_bind (mild_signal other)
    intro ret
    apply mild_bind
    · exact mild_links (fun _ young => young) fun _ => rfl
    intro _
    apply mild_bind mild_yield
    intro _
    apply mild_bind
    · exact mild_links (fun _ young => young) fun _ => rfl
    exact fun _ => mild_pure _

end Calls

end BermudaOS.Sys.Sched
