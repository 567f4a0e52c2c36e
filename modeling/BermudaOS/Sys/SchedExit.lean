import BermudaOS.Sys.SchedPrioQueue

/-! Leaving the scheduler. `BermudaThreadExit` takes the running thread out of the run
queue and the total list and puts it into the kill queue, whose threads
`BermudaThreadFree` frees. The total list is searched through the wrong link, and a
thread that gets a successor in the kill queue goes back to the run queue. -/
namespace BermudaOS.Sys.Sched
open VirtTimer Lib.Chains Lib.Program

variable {k l m : Kernel} {t : Addr} {r : Ref} {before after ws all : List Addr}

/-- The queues that are linked through `next`. -/
def IsList : Ref → Prop
  | .bermudaRunQueue => True
  | .bermudaKillQueue => True
  | .event _ => True
  | _ => False

theorem isList_next (list : IsList r) (s : Addr) : r ≠ .next s := by
  rintro rfl
  exact list

theorem Frame.chain {s : Ref} (frame : Frame k l r before t) (front : ∀ b, r ≠ .next b)
    (chain : Chain k.next (k.link s) ws) (away : s ≠ r) (first : ∀ b, s ≠ .next b)
    (apart : ∀ b ∈ before ++ [t], b ∉ ws) : Chain l.next (l.link s) ws := by
  rw [frame s away fun b _ => first b]
  refine seg_congr chain fun b inside => frame (.next b) (front b).symm fun c member same => ?_
  injection same with same
  exact apart c member (same ▸ inside)

theorem Frame.total (frame : Frame k l r before t) (front : ∀ b, r ≠ .qNext b) (away : r ≠ .bermudaThreadHead)
    (chain : Chain k.qNext (k.link .bermudaThreadHead) all) :
    Chain l.qNext (l.link .bermudaThreadHead) all := by
  rw [frame .bermudaThreadHead away.symm fun b _ => by simp]
  exact seg_congr chain fun b _ => frame (.qNext b) (front b).symm fun c _ => by simp

theorem Frame.queued {q : Addr} (frame : Frame k l r before t) (front : ∀ b, r ≠ .next b)
    (away : r ≠ .event q) (apart : ∀ b ∈ before ++ [t], b ∉ ws) (waits : Waiters k q ws) :
    Waiters l q ws := by
  have word : l.link (.event q) = k.link (.event q) := frame _ away.symm fun b _ => by simp
  rcases waits with ⟨signal,empty⟩ | ⟨busy,chain⟩
  · exact .inl ⟨word.trans signal,empty⟩
  · exact .inr ⟨word ▸ busy,frame.chain front chain away.symm (by simp) apart⟩

/-- A scheduler in which `t` runs, with its queues and its total list. If the first of all
threads is in no queue it has no successor, as `BermudaThreadQueueRemove` leaves it. -/
structure Exiting (k : Kernel) (t : Addr) (queue : Ref → List Addr) (all : List Addr) : Prop where
  current : k.bermudaCurrentThread = t
  running : t ∈ queue .bermudaRunQueue
  run : Chain k.next (k.link .bermudaRunQueue) (queue .bermudaRunQueue)
  kill : Chain k.next (k.link .bermudaKillQueue) (queue .bermudaKillQueue)
  events : ∀ q, Waiters k q (queue (.event q))
  total : Chain k.qNext (k.link .bermudaThreadHead) all
  only : ∀ r, ¬IsList r → queue r = []
  once : ∀ r s t, t ∈ queue r → t ∈ queue s → r = s
  loose : ∀ s, all.head? = some s → (∀ r, s ∉ queue r) → k.next s = none
  real : (∀ r, nowhere ∉ queue r) ∧ nowhere ∉ all

variable {queue : Ref → List Addr}

theorem chain_unsignaled {next : Addr → Option Addr} {p : Option Addr} (chain : Chain next p ws)
    (real : nowhere ∉ ws) : p ≠ signaled := by
  rintro rfl
  cases ws with
  | nil => cases chain
  | cons s ws =>
    obtain ⟨same,_⟩ := chain
    obtain rfl := Option.some.inj same
    simp at real

/-- The search for `t` in the total list follows `next`, and finds it only in front. -/
theorem removeHead_run (none_next : k.next t = none) (real : k.link .bermudaThreadHead ≠ signaled)
    (walk : k.link .bermudaThreadHead = some t ∨
      ∃ ws, Chain k.next (k.link .bermudaThreadHead) ws ∧ t ∉ ws) :
    ∃ l, (bermudaThreadQueueRemove .bermudaThreadHead t).run k = some ((),l) ∧
      l.links.prio = k.links.prio ∧ l.bermudaCurrentThread = k.bermudaCurrentThread ∧
      l.next t = none ∧ Frame k l .bermudaThreadHead [] t ∧
      l.link .bermudaThreadHead =
        if k.link .bermudaThreadHead = some t then none else k.link .bermudaThreadHead := by
  by_cases head : k.link .bermudaThreadHead = some t
  · have chain : Chain k.next (k.link .bermudaThreadHead) ([] ++ t::[]) := ⟨head,none_next⟩
    obtain ⟨l,runs,edit,-⟩ := remove_found chain real
    obtain ⟨empty,last,frame⟩ := edit.removed chain (by simp)
    rw [if_pos head]
    exact ⟨l,runs,edit.prio,edit.current,last,frame,empty⟩
  · obtain ⟨ws,chain,absent⟩ := walk.resolve_left head
    exact ⟨k,remove_missing chain absent,rfl,rfl,none_next,fun _ _ _ => rfl,(if_neg head).symm⟩

theorem Exiting.isList (exiting : Exiting k t queue all) {s : Addr} (inside : s ∈ queue r) : IsList r := by
  by_contra other
  simp [exiting.only r other] at inside

theorem Exiting.chain (exiting : Exiting k t queue all) {s : Addr} (inside : s ∈ queue r) :
    Chain k.next (k.link r) (queue r) := by
  have list := exiting.isList inside
  cases r with
  | bermudaRunQueue => exact exiting.run
  | bermudaKillQueue => exact exiting.kill
  | event q =>
    rcases exiting.events q with ⟨_,empty⟩ | ⟨_,chain⟩
    · simp [empty] at inside
    · exact chain
  | _ => exact list.elim

theorem Exiting.apart (exiting : Exiting k t queue all) (list : queue .bermudaRunQueue = before ++ t::after)
    (other : r ≠ .bermudaRunQueue) : ∀ b ∈ before ++ [t], b ∉ queue r := by
  intro b early inside
  refine other (exiting.once r .bermudaRunQueue b inside ?_)
  rw [list]
  rcases List.mem_append.mp early with ahead | own
  · simp [ahead]
  · simp [List.mem_singleton.mp own]

theorem Exiting.walk (exiting : Exiting k t queue all)
    (list : queue .bermudaRunQueue = before ++ t::after)
    (short : Chain l.next (l.link .bermudaRunQueue) (before ++ after))
    (frame : Frame k l .bermudaRunQueue before t) :
    l.link .bermudaThreadHead = some t ∨
      ∃ ws, Chain l.next (l.link .bermudaThreadHead) ws ∧ t ∉ ws := by
  have word : l.link .bermudaThreadHead = k.link .bermudaThreadHead := frame _ (by simp) fun b _ => by simp
  have nodup := chain_nodup exiting.run
  rw [list,List.perm_middle.nodup_iff] at nodup
  have fresh : t ∉ before ++ after := (List.nodup_cons.mp nodup).1
  rw [word]
  cases head : k.link .bermudaThreadHead with
  | none => exact .inr ⟨[],rfl,by simp⟩
  | some h =>
    by_cases same : h = t
    · exact .inl (congrArg some same)
    refine .inr ?_
    -- from its place in a chain, the walk goes on to the end of that chain
    have rest {p : Option Addr} {xs : List Addr} (chain : Chain l.next p xs) (inside : h ∈ xs)
        (absent : t ∉ xs) : ∃ ws, Chain l.next (some h) ws ∧ t ∉ ws := by
      obtain ⟨early,late,rfl⟩ := List.append_of_mem inside
      obtain ⟨_,_,_,behind⟩ := (seg_append _ _ _ _ _).mp chain
      exact ⟨h::late,⟨rfl,behind⟩,fun member => absent (by simp at member; simp [member])⟩
    by_cases listed : ∃ r, h ∈ queue r
    · obtain ⟨r,inside⟩ := listed
      by_cases run : r = .bermudaRunQueue
      · subst run
        rw [list] at inside
        refine rest short ?_ fresh
        simpa [same] using inside
      · have apart := exiting.apart list run
        have chain := frame.chain (by simp) (exiting.chain inside) run
          (isList_next (exiting.isList inside)) apart
        exact rest chain inside (apart t (by simp))
    · have out : ∀ r, h ∉ queue r := fun r inside => listed ⟨r,inside⟩
      refine ⟨[h],⟨rfl,?_⟩,by simpa using Ne.symm same⟩
      have still : l.next h = k.next h := frame (.next h) (by simp) fun b member apart => ?_
      · refine still.trans (exiting.loose h ?_ out)
        rw [← chain_head exiting.total,head]
      · injection apart with apart
        subst apart
        rcases List.mem_append.mp member with early | own
        · exact out .bermudaRunQueue (by simp [list,early])
        · exact same (by simpa using own)

/-- The scheduler after the part of `BermudaThreadExit` before its yield. The total list
has lost all its threads, or none. -/
structure Exited (k l : Kernel) (t : Addr) (queue : Ref → List Addr) (all before after : List Addr) :
    Prop where
  current : l.bermudaCurrentThread = t
  prio : l.links.prio = k.links.prio
  next : l.next t = after.head?
  run : Chain l.next (l.link .bermudaRunQueue) ((queue .bermudaRunQueue).erase t)
  kill : Chain l.next (l.link .bermudaKillQueue) (before ++ t::after)
  events : ∀ q, Waiters l q (queue (.event q))
  total : Chain l.qNext (l.link .bermudaThreadHead) (if all.head? = some t then [] else all)
  low : ∀ b ∈ before, k.links.prio b ≤ k.links.prio t
  high : ∀ a, after.head? = some a → k.links.prio t < k.links.prio a

theorem leave_run (exiting : Exiting k t queue all) {main : Option Addr} (found : mainThread k = some main)
    (other : main ≠ some t) : ∃ l before after, queue .bermudaKillQueue = before ++ after ∧
      leave.run k = some ((),l) ∧ Exited k l t queue all before after := by
  obtain ⟨early,late,list⟩ := List.append_of_mem exiting.running
  have nodup := chain_nodup exiting.run
  rw [list,List.perm_middle.nodup_iff] at nodup
  have fresh : t ∉ early ++ late := (List.nodup_cons.mp nodup).1
  have short : (queue .bermudaRunQueue).erase t = early ++ late := by
    rw [list,List.erase_append_right _ fun inside => fresh (by simp [inside]),List.erase_cons_head]
  have apart {r : Ref} (away : r ≠ .bermudaRunQueue) : ∀ b ∈ early ++ [t], b ∉ queue r :=
    exiting.apart list away
  have none_else {r : Ref} (away : r ≠ .bermudaRunQueue) : t ∉ queue r := apart away t (by simp)
  -- out of the run queue
  obtain ⟨l₁,runs₁,edit₁,-⟩ := remove_found (list ▸ exiting.run) (chain_unsignaled exiting.run (exiting.real.1 _))
  obtain ⟨run₁,next₁,frame₁⟩ := edit₁.removed (list ▸ exiting.run) (by simp)
  have kill₁ := frame₁.chain (by simp) exiting.kill (by simp) (by simp) (apart (by simp))
  have total₁ := frame₁.total (by simp) (by simp) exiting.total
  -- out of the total list
  obtain ⟨l₂,runs₂,prio₂,current₂,next₂,frame₂,head₂⟩ :=
    removeHead_run next₁ (chain_unsignaled total₁ exiting.real.2) (exiting.walk list run₁ frame₁)
  have run₂ := frame₂.chain (by simp) run₁ (by simp) (by simp) (by simpa using fresh)
  have kill₂ := frame₂.chain (by simp) kill₁ (by simp) (by simp) (by simpa using none_else (by simp))
  have total₂ : Chain l₂.qNext (l₂.link .bermudaThreadHead) (if all.head? = some t then [] else all) := by
    rw [head₂,chain_head total₁]
    split
    · rfl
    · rw [← chain_head total₁]
      exact seg_congr total₁ fun b _ => frame₂ (.qNext b) (by simp) fun c _ => by simp
  -- into the kill queue
  obtain ⟨l₃,before,after,split,runs₃,edit₃,low,high⟩ := add_found kill₂ (none_else (by simp)) (by simp)
    (chain_unsignaled kill₂ (exiting.real.1 _))
  obtain ⟨kill₃,next₃,frame₃⟩ := edit₃.added (split ▸ kill₂) (split ▸ none_else (by simp)) (by simp)
  have prio : l₂.links.prio = k.links.prio := prio₂.trans edit₁.prio
  rw [prio] at low high
  have away (r : Ref) (other : r ≠ .bermudaKillQueue) (absent : t ∉ queue r) :
      ∀ b ∈ before ++ [t], b ∉ queue r := by
    intro b inside member
    rcases List.mem_append.mp inside with ahead | own
    · exact other (exiting.once r .bermudaKillQueue b member (by simp [split,ahead]))
    · exact absent (List.mem_singleton.mp own ▸ member)
  refine ⟨l₃,before,after,split,?_,⟨?_,edit₃.prio.trans prio,next₃,?_,kill₃,fun q => ?_,?_,low,high⟩⟩
  · unfold leave self
    rw [Prog.run_bind,Prog.run_get,Option.bind_some,Prog.run_bind,Prog.run_get,Option.bind_some,found]
    dsimp only
    rw [exiting.current,if_pos other,Prog.run_bind,runs₁,Option.bind_some,Prog.run_bind,runs₂,
      Option.bind_some,runs₃]
  · exact edit₃.current.trans (current₂.trans (edit₁.current.trans exiting.current))
  · rw [short]
    refine frame₃.chain (by simp) run₂ (by simp) (by simp) fun b inside member => ?_
    rcases List.mem_append.mp inside with ahead | own
    · have same := exiting.once .bermudaRunQueue .bermudaKillQueue b
        (by rw [list]; rcases List.mem_append.mp member with h | h <;> simp [h]) (by simp [split,ahead])
      cases same
    · exact fresh (List.mem_singleton.mp own ▸ member)
  · have waits₁ := frame₁.queued (by simp) (by simp) (apart (by simp)) (exiting.events q)
    have waits₂ := frame₂.queued (by simp) (by simp) (by simpa using none_else (by simp)) waits₁
    exact frame₃.queued (by simp) (by simp) (away _ (by simp) (none_else (by simp))) waits₂
  · exact frame₃.total (by simp) (by simp) total₂

theorem requeue_run (current : k.bermudaCurrentThread = t)
    (chain : Chain k.next (k.link .bermudaRunQueue) ws) (real : nowhere ∉ ws)
    (more : t ∈ ws ∨ k.next t ≠ none) : ∃ l us, requeue.run k = some ((),l) ∧
      Chain l.next (l.link .bermudaRunQueue) us ∧ t ∈ us := by
  have front : ∀ s, Ref.bermudaRunQueue ≠ .next s := by simp
  -- what is added was not in the queue
  have added {m : Kernel} {xs : List Addr} (list : Chain m.next (m.link .bermudaRunQueue) xs)
      (fresh : t ∉ xs) (real : nowhere ∉ xs) : ∃ l us,
        (bermudaThreadPrioQueueAdd .bermudaRunQueue t).run m = some ((),l) ∧
        Chain l.next (l.link .bermudaRunQueue) us ∧ t ∈ us := by
    obtain ⟨l,before,after,rfl,runs,edit,_⟩ := add_found list fresh front (chain_unsignaled list real)
    exact ⟨l,_,runs,(edit.added list fresh front).1,by simp⟩
  unfold requeue self
  rw [Prog.run_bind,Prog.run_get,Option.bind_some,Prog.run_bind,Prog.run_get,Option.bind_some,current]
  dsimp only
  by_cases last : k.next t = none
  · rw [if_neg (by simp [last])]
    exact ⟨k,ws,rfl,chain,more.resolve_right fun some_ => some_ last⟩
  rw [if_pos last,Prog.run_bind]
  by_cases inside : t ∈ ws
  · obtain ⟨before,after,rfl⟩ := List.append_of_mem inside
    obtain ⟨m,runs,edit,-⟩ := remove_found chain (chain_unsignaled chain real)
    have nodup := (List.perm_middle.nodup_iff).mp (chain_nodup chain)
    rw [runs]
    refine added (edit.removed chain front).1 (List.nodup_cons.mp nodup).1 fun inside => real ?_
    rcases List.mem_append.mp inside with early | late
    · simp [early]
    · simp [late]
  · rw [remove_missing chain inside]
    exact added chain inside real

theorem requeue_still (current : k.bermudaCurrentThread = t) (last : k.next t = none) :
    requeue.run k = some ((),k) := by
  unfold requeue self
  rw [Prog.run_bind,Prog.run_get,Option.bind_some,Prog.run_bind,Prog.run_get,Option.bind_some,current]
  dsimp only
  rw [if_neg (by simp [last])]
  rfl

theorem freeLoop_run {fuel : Nat} (chain : Chain k.next (k.link .bermudaKillQueue) ws)
    (real : nowhere ∉ ws) (enough : ws.length < fuel) : ∃ l, (freeLoop fuel).run k = some ((),l) ∧
      l.link .bermudaKillQueue = none ∧
      ∀ s, s ≠ .bermudaKillQueue → (∀ b ∈ ws, s ≠ .next b) → l.link s = k.link s := by
  induction ws generalizing k fuel with
  | nil =>
    obtain ⟨fuel,rfl⟩ : ∃ n, fuel = n + 1 := ⟨fuel - 1,by simp at enough; omega⟩
    have empty : k.link .bermudaKillQueue = none := chain
    refine ⟨k,?_,empty,fun _ _ _ => rfl⟩
    unfold freeLoop
    rw [Prog.run_bind,Prog.run_get,Option.bind_some,empty]
    rfl
  | cons t ws ih =>
    obtain ⟨fuel,rfl⟩ : ∃ n, fuel = n + 1 := ⟨fuel - 1,by simp at enough; omega⟩
    have first : Chain k.next (k.link .bermudaKillQueue) ([] ++ t::ws) := chain
    obtain ⟨m,runs,edit,-⟩ := remove_found first (chain_unsignaled chain real)
    obtain ⟨rest,_,frame⟩ := edit.removed first (by simp)
    obtain ⟨l,more,empty,same⟩ := ih rest (fun inside => real (by simp [inside])) (by simpa using enough)
    refine ⟨l,?_,empty,fun s away apart => ?_⟩
    · unfold freeLoop
      rw [Prog.run_bind,Prog.run_get,Option.bind_some,chain.1]
      dsimp only
      rw [Prog.run_bind,runs,Option.bind_some]
      exact more
    · rw [same s away fun b inside => apart b (by simp [inside])]
      exact frame s away fun b inside => apart b (by simp at inside; simp [inside])

/-- What `BermudaThreadExit` is for: of all lists, only the kill queue still has `t`. -/
structure Departed (l : Kernel) (t : Addr) (queue : Ref → List Addr) (all : List Addr) : Prop where
  total : Chain l.qNext (l.link .bermudaThreadHead) (all.erase t)
  run : Chain l.next (l.link .bermudaRunQueue) ((queue .bermudaRunQueue).erase t)
  kill : ∃ before after, queue .bermudaKillQueue = before ++ after ∧
    Chain l.next (l.link .bermudaKillQueue) (before ++ t::after)
  events : ∀ q, Waiters l q (queue (.event q))

/-- What `BermudaThreadFree` is for: no list reaches `t`, and the other threads are
where they were. -/
structure Cleared (l : Kernel) (t : Addr) (queue : Ref → List Addr) (all : List Addr) : Prop where
  total : Chain l.qNext (l.link .bermudaThreadHead) (all.erase t)
  run : Chain l.next (l.link .bermudaRunQueue) ((queue .bermudaRunQueue).erase t)
  kill : l.link .bermudaKillQueue = none
  events : ∀ q, Waiters l q (queue (.event q))
  unreached : t ∉ all.erase t ∧ t ∉ (queue .bermudaRunQueue).erase t ∧ ∀ q, t ∉ queue (.event q)

/-- `t` leaves by `BermudaThreadExit`, and is freed. -/
def LeavesCleanly (k : Kernel) (t : Addr) (queue : Ref → List Addr) (all : List Addr) : Prop :=
  ∃ l m, (leave >>= fun _ => requeue).run k = some ((),l) ∧ Departed l t queue all ∧
    bermudaThreadFree.run l = some ((),m) ∧ Cleared m t queue all

theorem Departed.cleared (departed : Departed l t queue all) (exiting : Exiting k t queue all) :
    ∃ m, bermudaThreadFree.run l = some ((),m) ∧ Cleared m t queue all := by
  obtain ⟨total,run,⟨before,after,split,kill⟩,events⟩ := departed
  have own : t ∉ (queue .bermudaRunQueue).erase t := fun inside =>
    (List.Nodup.mem_erase_iff (chain_nodup exiting.run)).mp inside |>.1 rfl
  have none_else {r : Ref} (other : r ≠ .bermudaRunQueue) : t ∉ queue r := fun inside =>
    other (exiting.once r .bermudaRunQueue t inside exiting.running)
  have real : nowhere ∉ before ++ t::after := by
    intro inside
    have dead := exiting.real.1 .bermudaKillQueue
    have alive : t ≠ nowhere := fun same => exiting.real.1 .bermudaRunQueue (same ▸ exiting.running)
    rw [split] at dead
    simp only [List.mem_append,List.mem_cons,alive.symm,false_or] at inside dead
    exact dead inside
  have short : (before ++ t::after).length < addrLimit + 1 := Nat.lt_succ_of_le (chain_length kill)
  obtain ⟨m,runs,empty,same⟩ := freeLoop_run kill real short
  -- whoever is in the kill queue is in no other one
  have apart {r : Ref} {s : Addr} (other : r ≠ .bermudaKillQueue) (inside : s ∈ queue r) (foreign : s ≠ t) :
      s ∉ before ++ t::after := by
    intro dead
    refine other (exiting.once r .bermudaKillQueue s inside ?_)
    rw [split]
    simpa [foreign] using dead
  have next {s : Addr} (away : s ∉ before ++ t::after) : m.next s = l.next s :=
    same (.next s) (by simp) fun b inside equal => by
      injection equal with equal
      exact away (equal ▸ inside)
  refine ⟨m,runs,?_,?_,empty,fun q => ?_,?_,own,fun q => none_else (by simp)⟩
  · rw [same .bermudaThreadHead (by simp) fun b _ => by simp]
    exact seg_congr total fun s _ => same (.qNext s) (by simp) fun b _ => by simp
  · rw [same .bermudaRunQueue (by simp) fun b _ => by simp]
    refine seg_congr run fun s inside => next (apart (r := .bermudaRunQueue) (by simp) ?_ ?_)
    · exact List.mem_of_mem_erase inside
    · exact fun equal => own (equal ▸ inside)
  · have word : m.link (.event q) = l.link (.event q) := same _ (by simp) fun b _ => by simp
    rcases events q with ⟨signal,none_waits⟩ | ⟨busy,chain⟩
    · exact .inl ⟨word.trans signal,none_waits⟩
    · refine .inr ⟨word ▸ busy,word ▸ seg_congr chain fun s inside => next ?_⟩
      exact apart (r := .event q) (by simp) inside fun equal => none_else (by simp) (equal ▸ inside)
  · exact fun inside => (List.Nodup.mem_erase_iff (chain_nodup exiting.total)).mp inside |>.1 rfl

theorem getByName_begins {name : List Char} {ts : List Addr} {p : Option Addr} {fuel : Nat} (chain : Chain k.qNext p ts)
    (enough : ts.length ≤ fuel) :
    getByName k name fuel p = some (ts.find? fun c => (k.thread c).name <+: name) := by
  induction ts generalizing p fuel with
  | nil =>
    obtain rfl : p = none := chain
    cases fuel <;> rfl
  | cons c ts ih =>
    obtain ⟨rfl,rest⟩ := chain
    obtain ⟨fuel,rfl⟩ : ∃ n, fuel = n + 1 := ⟨fuel - 1,by simp at enough; omega⟩
    rw [getByName,ih rest (by simpa using enough),List.find?_cons]
    by_cases early : (k.thread c).name <+: name
    · simp [early]
    · simp [early]

theorem Exiting.mainThread (exiting : Exiting k t queue all) :
    mainThread k = some (all.find? fun c => (k.thread c).name <+: ['M','A','I','N']) :=
  getByName_begins exiting.total (chain_length exiting.total)

/-- A thread that is taken for MAIN only yields. -/
theorem leave_stays (found : mainThread k = some (some k.bermudaCurrentThread)) : leave.run k = some ((),k) := by
  unfold leave self
  rw [Prog.run_bind,Prog.run_get,Option.bind_some,Prog.run_bind,Prog.run_get,Option.bind_some,found]
  dsimp only
  rw [if_neg (by simp)]
  rfl

/-- The first thread is dropped with all behind it, and another one is not dropped. -/
theorem dropped_iff : (if all.head? = some t then [] else all) = all.erase t ↔ (t ∈ all → all = [t]) := by
  constructor
  · intro same inside
    split at same
    · next head =>
      obtain ⟨rest,rfl⟩ := List.head?_eq_some_iff.mp head
      rw [List.erase_cons_head] at same
      rw [← same]
    · have size := congrArg List.length same
      have pos := List.length_pos_of_mem inside
      rw [List.length_erase_of_mem inside] at size
      omega
  · intro alone
    by_cases inside : t ∈ all
    · rw [alone inside]
      simp
    · have head : all.head? ≠ some t := fun head => inside (List.mem_of_mem_head? head)
      rw [if_neg head,List.erase_of_not_mem inside]

theorem stays_not_clean (exiting : Exiting k t queue all) {us : List Addr}
    (runs : (leave >>= fun _ => requeue).run k = some ((),l))
    (chain : Chain l.next (l.link .bermudaRunQueue) us) (inside : t ∈ us) : ¬LeavesCleanly k t queue all := by
  rintro ⟨m,_,again,departed,_⟩
  obtain rfl : l = m := (Prod.mk.inj (Option.some.inj (runs.symm.trans again))).2
  rw [chain_unique chain departed.run] at inside
  exact ((List.Nodup.mem_erase_iff (chain_nodup exiting.run)).mp inside).1 rfl

/-- A thread leaves cleanly exactly if it is not taken for MAIN, it is alone in the total
list or not in it, and no less important thread waits to be freed. -/
theorem exit_exact (exiting : Exiting k t queue all) : LeavesCleanly k t queue all ↔
    mainThread k ≠ some (some t) ∧ (t ∈ all → all = [t]) ∧
      ∀ s ∈ queue .bermudaKillQueue, (k.thread s).prio ≤ (k.thread t).prio := by
  obtain ⟨main,found⟩ : ∃ c, mainThread k = some c := ⟨_,exiting.mainThread⟩
  by_cases same : main = some t
  · -- the thread is taken for MAIN, and only yields
    subst same
    have stays : leave.run k = some ((),k) := leave_stays (exiting.current.symm ▸ found)
    obtain ⟨l,us,runs,chain,inside⟩ := requeue_run exiting.current exiting.run (exiting.real.1 _)
      (.inl exiting.running)
    have whole : (leave >>= fun _ => requeue).run k = some ((),l) := by
      rw [Prog.run_bind,stays]
      exact runs
    exact ⟨fun clean => absurd clean (stays_not_clean exiting whole chain inside),
      fun ⟨taken,_⟩ => absurd found taken⟩
  · have taken : mainThread k ≠ some (some t) := by
      rw [found]
      exact fun equal => same (Option.some.inj equal)
    obtain ⟨l,before,after,split,runs,exited⟩ := leave_run exiting found same
    cases after with
    | nil =>
      have whole : (leave >>= fun _ => requeue).run k = some ((),l) := by
        rw [Prog.run_bind,runs]
        exact requeue_still exited.current exited.next
      constructor
      · rintro ⟨m,_,again,departed,_⟩
        obtain rfl : l = m := (Prod.mk.inj (Option.some.inj (whole.symm.trans again))).2
        refine ⟨taken,dropped_iff.mp (chain_unique exited.total departed.total),fun s dead => ?_⟩
        rw [split,List.append_nil] at dead
        exact exited.low s dead
      · rintro ⟨_,alone,_⟩
        have departed : Departed l t queue all :=
          ⟨dropped_iff.mpr alone ▸ exited.total,exited.run,⟨before,[],split,exited.kill⟩,exited.events⟩
        obtain ⟨m,freed,cleared⟩ := departed.cleared exiting
        exact ⟨l,m,whole,departed,freed,cleared⟩
    | cons a after =>
      -- its successor in the kill queue sends it back to the run queue
      obtain ⟨m,us,again,chain,inside⟩ := requeue_run exited.current exited.run
        (fun dead => exiting.real.1 .bermudaRunQueue (List.mem_of_mem_erase dead))
        (.inr (by simp [exited.next]))
      have whole : (leave >>= fun _ => requeue).run k = some ((),m) := by
        rw [Prog.run_bind,runs]
        exact again
      refine ⟨fun clean => absurd clean (stays_not_clean exiting whole chain inside),fun ⟨_,_,least⟩ => ?_⟩
      have more := exited.high a rfl
      have less := least a (by simp [split])
      change (k.thread t).prio < (k.thread a).prio at more
      omega

theorem Client.exiting {u : Usage} {L : Lists} {R : Rest} (client : Client u t L R k) :
    Exiting k t L.queue L.all := by
  have core := client.here.core
  have killed : L.queue .bermudaKillQueue = [] := core.only _ id
  refine ⟨(congrArg Rest.current client.here.rest).trans client.current,client.ready,
    core.chain _ trivial core.runWord,?_,client.here.waiters,core.all,fun r other => core.only r ?_,
    core.alone,fun s first floating => ?_,fun r inside => core.real (core.known r _ inside),core.real⟩
  · rw [killed]
    exact core.kill
  · intro queue
    cases r <;> first | exact other trivial | exact queue
  · exact client.loose s (List.mem_of_head? first) floating (by simp)

/-- Until a thread exits, every thread that runs client code may be the one that does. -/
theorem reachable_exiting {u : Usage} {c : Config Kernel Addr Op Int} (gentle : Gentle u)
    (reach : Reachable (scheduler u) (booted u) c) (idle : c.call c.running = none) :
    ∃ queue all, Exiting c.state c.running queue all := by
  obtain ⟨L,R,client⟩ := (kernel_good gentle reach).idle idle
  exact ⟨L.queue,L.all,client.exiting⟩

theorem At.collected {u : Usage} {L : Lists} {R : Rest} {n : Nat} (here : At u L R k)
    (threads : collect k.qNext n (k.link .bermudaThreadHead) = some all)
    (ready : collect k.next n (k.link .bermudaRunQueue) = some ws) :
    L.all = all ∧ L.queue .bermudaRunQueue = ws :=
  ⟨chain_unique here.core.all (collect_chain threads),
    chain_unique (here.core.chain _ trivial here.core.runWord) (collect_chain ready)⟩

/-- A is the newest thread, and the most important one. -/
def exitConfig : Config Kernel Addr Op Int :=
  perform plainUsage [.call (.bermudaThreadCreate 0x200 ['M','A','I','N'] 150) 40,
    .call (.bermudaThreadCreate 0x300 ['A'] 100) 40,.call .bermudaThreadYield 80]
    (bootConfig plainUsage [] 0x500)

def exitQueues : Ref → List Addr :=
  Function.update (fun _ => []) .bermudaRunQueue [0x300,0x200,0x100]

theorem exitConfig_reachable : Reachable (scheduler plainUsage) (booted plainUsage) exitConfig := by
  have start : booted plainUsage (bootConfig plainUsage [] 0x500) :=
    bootConfig_booted (by decide) fun q => by simp [plainUsage]
  exact perform_reachable (.init start) (by decide +kernel)

theorem exitConfig_exiting : Exiting exitConfig.state 0x300 exitQueues [0x300,0x200,0x100] := by
  have good := kernel_good plainUsage_gentle exitConfig_reachable
  obtain ⟨L,R,client⟩ := good.idle (by decide +kernel)
  have running : exitConfig.running = 0x300 := by decide +kernel
  rw [running] at client
  have core := client.here.core
  have threads : collect exitConfig.state.qNext 3 (exitConfig.state.link .bermudaThreadHead) =
      some [0x300,0x200,0x100] := by decide +kernel
  have ready : collect exitConfig.state.next 3 (exitConfig.state.link .bermudaRunQueue) =
      some [0x300,0x200,0x100] := by decide +kernel
  obtain ⟨all,run⟩ := client.here.collected threads ready
  have queues : L.queue = exitQueues := by
    funext r
    by_cases same : r = .bermudaRunQueue
    · subst same
      simp [exitQueues,run]
    · have empty : L.queue r = [] := by
        refine List.eq_nil_iff_forall_not_mem.mpr fun s inside => same ?_
        have known := core.known r s inside
        rw [all,← run] at known
        exact core.alone r .bermudaRunQueue s inside known
      simp [exitQueues,same,empty]
  rw [← queues,← all]
  exact client.exiting

theorem exit_exact_newest : LeavesCleanly exitConfig.state 0x300 exitQueues [0x300,0x200,0x100] ↔
    mainThread exitConfig.state ≠ some (some 0x300) ∧
      (0x300 ∈ [0x300,0x200,(0x100 : Addr)] → [0x300,0x200,(0x100 : Addr)] = [0x300]) ∧
      ∀ s ∈ exitQueues .bermudaKillQueue,
        (exitConfig.state.thread s).prio ≤ (exitConfig.state.thread 0x300).prio :=
  exit_exact exitConfig_exiting

theorem exit_loses_all : Reachable (scheduler plainUsage) (booted plainUsage) exitConfig ∧
    Exiting exitConfig.state 0x300 exitQueues [0x300,0x200,0x100] ∧
    ¬LeavesCleanly exitConfig.state 0x300 exitQueues [0x300,0x200,0x100] := by
  refine ⟨exitConfig_reachable,exitConfig_exiting,?_⟩
  rintro ⟨l,_,runs,departed,_⟩
  have lost : (((leave >>= fun _ => requeue).run exitConfig.state).map
      fun x => x.2.link .bermudaThreadHead) = some none := by decide +kernel
  have head := chain_head departed.total
  rw [runs] at lost
  rw [show l.link .bermudaThreadHead = none from Option.some.inj lost] at head
  cases head

end BermudaOS.Sys.Sched
