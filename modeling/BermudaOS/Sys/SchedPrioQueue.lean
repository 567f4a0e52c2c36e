import Mathlib.Algebra.GroupWithZero.Nat
import BermudaOS.Sys.SchedLocks

/-! The queue functions as one call each, between two interrupts. A queue is sorted by priority and
only its head counts events. Adding a thread puts it behind its equals and carries the count to
whoever is the head; removing it again undoes that. -/
namespace BermudaOS.Sys.Sched
open VirtTimer Lib.Chains Lib.Program

/-- The queue behind the variable `r` holds these threads, signaled or not. -/
structure Ordered (k : Kernel) (r : Ref) (ws : List Addr) : Prop where
  queued : Queued k r ws
  sorted : ws.Pairwise (fun a b => k.links.prio a ≤ k.links.prio b)
  events : ∀ w ∈ ws.tail, k.links.ec w = 0
  bytes : ∀ w ∈ ws, k.links.ec w < 2^8

/-- The events that are pending on the threads of a queue. -/
def eventsOf (k : Kernel) (ws : List Addr) : Nat := (ws.map k.links.ec).sum

variable {k l : Kernel} {r : Ref} {t : Addr} {ws before after : List Addr}

theorem prepared_links (r : Ref) (t : Addr) (k : Kernel) :
    (prepared r t k).links = {k.links with
      ec := Function.update k.links.ec t 0
      queue := Function.update k.links.queue t (some r)
      arrived := Function.update k.links.arrived t k.clock
      clock := k.clock + 1} := by
  simp only [prepared,Kernel.links_stamp,Kernel.links_setQueue,Kernel.links_setEc]
  rfl

/-- Only links change, and other fields of threads than the priority. -/
structure Relinked (k l : Kernel) (link : Ref → Option Addr) : Prop where
  link : l.link = link
  prio : l.links.prio = k.links.prio
  current : l.bermudaCurrentThread = k.bermudaCurrentThread

theorem cut_relinked (k : Kernel) (r : Ref) (t : Addr) :
    (cut r t k).links.prio = k.links.prio ∧ (cut r t k).link = Function.update k.link r (k.next t) ∧
      (cut r t k).bermudaCurrentThread = k.bermudaCurrentThread := by
  unfold cut
  dsimp only
  split
  · exact ⟨rfl,rfl,rfl⟩
  · split
    · refine ⟨?_,rfl,rfl⟩
      simp only [Kernel.links_setEc]
      rfl
    · refine ⟨?_,rfl,rfl⟩
      simp only [Kernel.links_setEc]
      rfl

/-- The events pending on a thread that is unlinked go to the one behind it. -/
theorem cut_ec (k : Kernel) {s : Ref} (away : s ≠ .next t) (u : Addr) :
    (cut s t k).links.ec u =
      if u = t then 0 else if k.next t = some u ∧ k.links.ec t ≠ 0 then k.links.ec t else k.links.ec u := by
  have own : ((k.setLink s (k.next t)).thread t).ec = k.links.ec t := rfl
  have next : (k.setLink s (k.next t)).next t = k.next t := by
    simp [Kernel.next,Kernel.setLink,away.symm]
  unfold cut
  dsimp only
  rw [own,next]
  by_cases zero : k.links.ec t = 0
  · rw [if_pos zero]
    by_cases same : u = t
    · rw [if_pos same,same]
      exact zero
    · rw [if_neg same,if_neg (fun both => both.2 zero)]
      rfl
  · rw [if_neg zero]
    cases onward : k.next t with
    | none => simp [Function.update_apply,Kernel.links_setEc]
    | some n => simp [Function.update_apply,Kernel.links_setEc,zero,eq_comm]

theorem remove_found (chain : Chain k.next (k.link r) (before ++ t::after)) (busy : k.link r ≠ signaled) :
    ∃ l, (bermudaThreadQueueRemove r t).run k = some ((),l) ∧ Relinked k l
      (Function.update (Function.update k.link (spot r before) (k.next t)) (.next t) none) ∧
      l.links.ec = (cut (spot r before) t k).links.ec := by
  have absent : t ∉ before := fun early => by
    have nodup := chain_nodup chain
    exact (List.nodup_cons.mp ((List.perm_middle.nodup_iff).mp nodup)).1 (by simp [early])
  have short := chain_length chain
  have walk := removeWalk_spot (k := k) (r := r) addrLimit chain absent (by simp at short; omega)
  obtain ⟨prio,link,current⟩ := cut_relinked k (spot r before) t
  unfold bermudaThreadQueueRemove
  rw [Prog.run_bind,Prog.run_get,Option.bind_some,if_neg busy,Prog.run_bind,Prog.run_get,Option.bind_some]
  dsimp only
  rw [walk]
  refine ⟨_,rfl,⟨?_,?_,current⟩,by simp⟩
  · change Function.update (cut (spot r before) t k).link (.next t) none = _
    rw [link]
  · rw [← prio]
    simp

theorem removeWalk_missing {fuel : Nat} {p : Option Addr} (chain : Chain k.next p ws) (absent : t ∉ ws)
    (enough : ws.length ≤ fuel) : removeWalk k t fuel r p = some none := by
  induction ws generalizing p r fuel with
  | nil =>
    obtain rfl : p = none := chain
    cases fuel <;> rfl
  | cons s ws ih =>
    obtain ⟨rfl,rest⟩ := chain
    obtain ⟨fuel,rfl⟩ : ∃ n, fuel = n + 1 := ⟨fuel - 1,by simp at enough; omega⟩
    simp only [List.mem_cons,not_or] at absent
    rw [removeWalk,if_neg (Ne.symm absent.1)]
    exact ih rest absent.2 (by simpa using enough)

theorem remove_missing (chain : Chain k.next (k.link r) ws) (absent : t ∉ ws) :
    (bermudaThreadQueueRemove r t).run k = some ((),k) := by
  unfold bermudaThreadQueueRemove
  rw [Prog.run_bind,Prog.run_get,Option.bind_some]
  split
  · rfl
  · rw [Prog.run_bind,Prog.run_get,Option.bind_some,removeWalk_missing chain absent (chain_length chain)]
    rfl

theorem add_inserted (queued : Queued k r ws) (front : ∀ u, r ≠ .next u) (fresh : t ∉ ws) :
    ∃ before after l, ws = before ++ after ∧ (bermudaThreadPrioQueueAdd r t).run k = some ((),l) ∧
      Inserted (prepared r t k).links l.links r t before after ∧ l.rest = (prepared r t k).rest ∧
      (∀ b ∈ before, k.links.prio b ≤ k.links.prio t) ∧ ∀ a, after.head? = some a → k.links.prio t < k.links.prio a := by
  have links := prepared_links r t k
  have zero : (prepared r t k).links.ec t = 0 := by rw [links]; simp
  have started : ((k.setEc t 0).setQueue t (some r)).stamp t = prepared r t k := rfl
  rcases queued with ⟨signal,empty⟩ | ⟨quiet,chain⟩
  · subst empty
    have signal : (prepared r t k).link r = signaled := signal
    refine ⟨[],[],_,rfl,?_,place_signaled (front t) signal zero,?_,by simp,by simp⟩
    · simp [bermudaThreadPrioQueueAdd,started,signal,enterQueue]
    · rw [(place_links _ (front t)).2,Kernel.rest_setEc]
  · have quiet : (prepared r t k).link r ≠ signaled := quiet
    cases ws with
    | nil =>
      have empty : (prepared r t k).link r = none := chain
      have inserted : Inserted (prepared r t k).links
          (place (spot r []) ([] : List Addr).head? t (prepared r t k)).links r t [] [] :=
        place_inserted (front t) quiet zero
      refine ⟨[],[],_,rfl,?_,inserted,(place_links _ (front t)).2,by simp,by simp⟩
      simp [bermudaThreadPrioQueueAdd,started,empty,enterQueue,signaled,spot_nil]
    | cons w ws =>
      have busy : (prepared r t k).link r = some w := chain.1
      have walked : Chain (prepared r t k).links.next (some w) (w::ws) := ⟨rfl,chain.2⟩
      have prio : (prepared r t k).links.prio = k.links.prio := by rw [links]
      obtain ⟨before,after,split,walk,low,high⟩ :=
        prioWalk_spot (r := r) ((prepared r t k).links.prio t) walked (chain_length chain)
      rw [prio] at low high walk
      have absent : spot r before ≠ .next t := spot_away front fun early => fresh (by simp [split,early])
      refine ⟨before,after,_,split,?_,place_inserted absent quiet zero,(place_links _ absent).2,low,high⟩
      have enter : enterQueue r t (prepared r t k) = prepared r t k := by
        rw [enterQueue,if_neg quiet,if_neg (by simp [busy])]
      have own : ((prepared r t k).thread t).prio = k.links.prio t := congrFun prio t
      rw [busy] at quiet
      simp [bermudaThreadPrioQueueAdd,started,enter,busy,quiet,own,walk]

theorem add_found (chain : Chain k.next (k.link r) ws) (fresh : t ∉ ws) (front : ∀ s, r ≠ .next s)
    (busy : k.link r ≠ signaled) : ∃ l before after, ws = before ++ after ∧
      (bermudaThreadPrioQueueAdd r t).run k = some ((),l) ∧
      Relinked k l (Function.update (Function.update k.link (.next t) after.head?) (spot r before) (some t)) ∧
      (∀ b ∈ before, k.links.prio b ≤ k.links.prio t) ∧
      ∀ a, after.head? = some a → k.links.prio t < k.links.prio a := by
  obtain ⟨before,after,l,split,runs,ins,rest,low,high⟩ := add_inserted (.inr ⟨busy,chain⟩) front fresh
  have prio : l.links.prio = k.links.prio := by rw [ins.prio,prepared_links]
  exact ⟨l,before,after,split,runs,⟨ins.link,prio,congrArg Rest.current rest⟩,low,high⟩

/-- The links that an edit behind `before` does not touch. -/
def Frame (k l : Kernel) (r : Ref) (before : List Addr) (t : Addr) : Prop :=
  ∀ s, s ≠ r → (∀ b ∈ before ++ [t], s ≠ .next b) → l.link s = k.link s

theorem spot_other {s : Ref} (away : s ≠ r) (apart : ∀ b ∈ before ++ [t], s ≠ .next b) :
    s ≠ spot r before := by
  rcases List.eq_nil_or_concat before with rfl | ⟨ahead,b,rfl⟩
  · exact away
  · rw [List.concat_eq_append] at apart ⊢
    rw [spot_append]
    exact apart b (by simp)

theorem Relinked.removed (edit : Relinked k l
      (Function.update (Function.update k.link (spot r before) (k.next t)) (.next t) none))
    (chain : Chain k.next (k.link r) (before ++ t::after)) (front : ∀ s, r ≠ .next s) :
    Chain l.next (l.link r) (before ++ after) ∧ l.next t = none ∧ Frame k l r before t := by
  have nodup := (List.perm_middle.nodup_iff).mp (chain_nodup chain)
  have fresh : t ∉ before ++ after := (List.nodup_cons.mp nodup).1
  refine ⟨?_,by simp [Kernel.next,edit.link],fun s away apart => ?_⟩
  · set y : Links := {k.links with link := Function.update k.link (spot r before) (k.next t)} with hy
    have cut : Chain y.next (y.link r) (before ++ after) := chain_remove (x := k.links) chain front rfl
    have word : l.link r = y.link r := by
      rw [edit.link]
      exact Function.update_of_ne (front t) _ _
    rw [word]
    refine seg_congr cut fun s inside => ?_
    have apart : s ≠ t := fun same => fresh (same ▸ inside)
    simp [Kernel.next,Links.next,edit.link,hy,apart]
  · rw [edit.link,Function.update_of_ne (apart t (by simp)),Function.update_of_ne (spot_other away apart)]

theorem Relinked.added (edit : Relinked k l
      (Function.update (Function.update k.link (.next t) after.head?) (spot r before) (some t)))
    (chain : Chain k.next (k.link r) (before ++ after)) (fresh : t ∉ before ++ after)
    (front : ∀ s, r ≠ .next s) : Chain l.next (l.link r) (before ++ t::after) ∧
      l.next t = after.head? ∧ Frame k l r before t := by
  have list : Chain l.next (l.link r) (before ++ t::after) :=
    chain_insert (x := k.links) (y := l.links) chain fresh front rfl edit.link
  refine ⟨list,?_,fun s away apart => ?_⟩
  · obtain ⟨_,_,_,rest⟩ := (seg_append _ _ _ _ _).mp list
    exact chain_head rest
  · rw [edit.link,Function.update_of_ne (spot_other away apart),Function.update_of_ne (apart t (by simp))]

theorem eventsOf_quiet (quiet : ∀ w ∈ ws, k.links.ec w = 0) : eventsOf k ws = 0 := by
  induction ws with
  | nil => rfl
  | cons w ws ih =>
    have rest := ih fun u member => quiet u (List.mem_cons_of_mem w member)
    simp only [eventsOf] at rest
    simp [eventsOf,rest,quiet w (by simp)]

theorem Ordered.events_head (queue : Ordered k r ws) : eventsOf k ws = pending k.links ws := by
  cases ws with
  | nil => rfl
  | cons w ws =>
    have rest := eventsOf_quiet queue.events
    simp only [eventsOf,List.tail_cons] at rest
    simp [eventsOf,pending,rest]

theorem Ordered.busy (queue : Ordered k r ws) (filled : ws ≠ []) : k.link r ≠ signaled :=
  (queue.queued.resolve_left fun empty => filled empty.2).1

theorem Ordered.chain (queue : Ordered k r ws) (busy : k.link r ≠ signaled) : Chain k.next (k.link r) ws :=
  (queue.queued.resolve_left fun empty => busy empty.1).2

theorem Ordered.counts (queue : Ordered k r (before ++ after)) (fresh : t ∉ before ++ after)
    (ins : Inserted (prepared r t k).links l.links r t before after) :
    l.links.ec t = (pending k.links after + if k.link r = signaled then 1 else 0) ∧
    ∀ u, u ≠ t → l.links.ec u = if after.head? = some u then 0 else k.links.ec u := by
  have same (u : Addr) (own : u ≠ t) : (prepared r t k).links.ec u = k.links.ec u := by
    rw [prepared_links]
    exact Function.update_of_ne own _ _
  have away (u : Addr) (member : u ∈ after) : u ≠ t := fun equal => fresh (by simp [← equal,member])
  have bytes (n : Addr) (member : n ∈ after) : (prepared r t k).links.ec n < 2^8 := by
    rw [same n (away n member)]
    exact queue.bytes n (by simp [member])
  have busy (filled : after ≠ []) : (prepared r t k).links.link r ≠ signaled := queue.busy (by simp [filled])
  obtain ⟨own,others⟩ := ins.ec_cases fresh bytes busy
  refine ⟨own.trans (congrArg (· + _) ?_),fun u other => (others u other).trans (by rw [same u other])⟩
  cases after with
  | nil => rfl
  | cons n after => simpa [pending] using same n (away n (by simp))

theorem Ordered.linked (queue : Ordered k r (before ++ after)) (front : ∀ u, r ≠ .next u) (fresh : t ∉ before ++ after)
    (real : t ≠ nowhere) (ins : Inserted (prepared r t k).links l.links r t before after) :
    Chain l.next (l.link r) (before ++ t::after) ∧ l.link r ≠ signaled := by
  have chain : Chain l.next (l.link r) (before ++ t::after) := by
    rcases queue.queued with ⟨-,empty⟩ | ⟨-,chain⟩
    · obtain ⟨rfl,rfl⟩ := List.append_eq_nil_iff.mp empty
      have word : l.link r = some t := by
        rw [show l.link = _ from ins.link,spot_nil,Function.update_self]
      have last : l.next t = none := by
        rw [Kernel.next,show l.link = _ from ins.link,spot_nil,Function.update_of_ne (front t).symm]
        simp
      exact ⟨word,last⟩
    · exact chain_insert (x := (prepared r t k).links) chain fresh front rfl ins.link
  refine ⟨chain,?_⟩
  rw [chain_head chain]
  cases before with
  | nil => simpa [signaled] using real
  | cons b before =>
    have busy := queue.busy (List.cons_ne_nil b (before ++ after))
    have head : k.link r = some b := (queue.chain busy).1
    rw [head] at busy
    exact busy

theorem Ordered.quiet (queue : Ordered k r (before ++ after)) (fresh : t ∉ before ++ after)
    (ins : Inserted (prepared r t k).links l.links r t before after) :
    ∀ w ∈ (before ++ t::after).tail, l.links.ec w = 0 := by
  obtain ⟨own,others⟩ := queue.counts fresh ins
  intro w member
  by_cases new : w = t
  · cases before with
    | nil => exact absurd (new ▸ member) fresh
    | cons b before =>
      rw [new,own,if_neg (queue.busy (List.cons_ne_nil b _))]
      cases after with
      | nil => rfl
      | cons n after => simpa [pending] using queue.events n (by simp)
  · rw [others w new]
    split
    · rfl
    · next head =>
      refine queue.events w ?_
      cases before with
      | nil =>
        cases after with
        | nil => cases member
        | cons n after => exact (List.mem_cons.mp member).resolve_left fun equal => head (by simp [equal])
      | cons b before =>
        have inside : w ∈ before ++ t::after := member
        simpa [new] using inside

theorem Ordered.small (queue : Ordered k r (before ++ after)) (fresh : t ∉ before ++ after)
    (ins : Inserted (prepared r t k).links l.links r t before after) :
    ∀ w ∈ before ++ t::after, l.links.ec w < 2^8 := by
  obtain ⟨own,others⟩ := queue.counts fresh ins
  intro w member
  by_cases new : w = t
  · rw [new,own]
    cases after with
    | nil =>
      simp only [pending]
      split <;> simp
    | cons n after =>
      have bound := queue.bytes n (by simp)
      rw [if_neg (queue.busy (by simp))]
      simpa [pending] using bound
  · have bound := queue.bytes w (by simpa [new] using member)
    rw [others w new]
    split <;> omega

theorem Ordered.insert (queue : Ordered k r (before ++ after)) (front : ∀ u, r ≠ .next u) (fresh : t ∉ before ++ after)
    (real : t ≠ nowhere) (low : ∀ b ∈ before, k.links.prio b ≤ k.links.prio t)
    (high : ∀ a ∈ after, k.links.prio t < k.links.prio a)
    (ins : Inserted (prepared r t k).links l.links r t before after) : Ordered l r (before ++ t::after) := by
  have prio : l.links.prio = k.links.prio := by rw [ins.prio,prepared_links]
  obtain ⟨chain,word⟩ := queue.linked front fresh real ins
  refine ⟨.inr ⟨word,chain⟩,?_,queue.quiet fresh ins,queue.small fresh ins⟩
  rw [prio]
  obtain ⟨left,right,across⟩ := List.pairwise_append.mp queue.sorted
  refine List.pairwise_append.mpr ⟨left,List.pairwise_cons.mpr ⟨fun a late => (high a late).le,right⟩,?_⟩
  intro b early a member
  rcases List.mem_cons.mp member with rfl | late
  · exact low b early
  · exact across b early a late

/-- No event is lost, and a signaled queue adds one. -/
theorem Ordered.total (queue : Ordered k r (before ++ after)) (fresh : t ∉ before ++ after)
    (ins : Inserted (prepared r t k).links l.links r t before after) (added : Ordered l r (before ++ t::after)) :
    eventsOf l (before ++ t::after) = eventsOf k (before ++ after) + if k.link r = signaled then 1 else 0 := by
  obtain ⟨own,others⟩ := queue.counts fresh ins
  rw [added.events_head,queue.events_head]
  cases before with
  | nil => exact own
  | cons b before =>
    have busy := queue.busy (List.cons_ne_nil b (before ++ after))
    have other : b ≠ t := fun equal => fresh (by simp [equal])
    have apart : after.head? ≠ some b := by
      intro head
      exact (List.nodup_append.mp (chain_nodup (queue.chain busy))).2.2 b (by simp) b (List.mem_of_mem_head? head) rfl
    have head : l.links.ec b = k.links.ec b := by rw [others b other,if_neg apart]
    simp [pending,head,busy]

/-- Removing the thread again restores the queue. -/
theorem remove_restores (queue : Ordered k r (before ++ after)) (front : ∀ u, r ≠ .next u)
    (fresh : t ∉ before ++ after) (quiet : k.link r ≠ signaled)
    (ins : Inserted (prepared r t k).links l.links r t before after) (added : Ordered l r (before ++ t::after))
    (busy : l.link r ≠ signaled) :
    ∃ m, (bermudaThreadQueueRemove r t).run l = some ((),m) ∧ Ordered m r (before ++ after) ∧
      m.link r = k.link r ∧ ∀ w ∈ before ++ after, m.links.ec w = k.links.ec w := by
  have chain := added.chain busy
  obtain ⟨m,runs,edit,counts⟩ := remove_found chain busy
  have short := (edit.removed chain front).1
  have absent : spot r before ≠ .next t := spot_away front fun early => fresh (by simp [early])
  have word : m.link r = k.link r := (chain_head short).trans (chain_head (queue.chain quiet)).symm
  have prio : m.links.prio = k.links.prio := by rw [edit.prio,ins.prio,prepared_links]
  obtain ⟨own,others⟩ := queue.counts fresh ins
  rw [if_neg quiet,Nat.add_zero] at own
  have onward : l.next t = after.head? := by
    obtain ⟨_,_,_,rest⟩ := (seg_append _ _ _ _ _).mp chain
    exact chain_head rest
  have same (w : Addr) (member : w ∈ before ++ after) : m.links.ec w = k.links.ec w := by
    have apart : w ≠ t := fun equal => fresh (equal ▸ member)
    rw [counts,cut_ec l absent,if_neg apart,onward,own,others w apart]
    by_cases head : after.head? = some w
    · have carried : pending k.links after = k.links.ec w := by simp [pending,head]
      rw [carried,if_pos head]
      by_cases zero : k.links.ec w = 0
      · rw [if_neg (fun both => both.2 zero),zero]
      · rw [if_pos ⟨head,zero⟩]
    · rw [if_neg (fun both => head both.1),if_neg head]
  refine ⟨m,runs,⟨.inr ⟨word ▸ quiet,short⟩,?_,?_,?_⟩,word,same⟩
  · rw [prio]
    exact queue.sorted
  · intro w member
    rw [same w (List.mem_of_mem_tail member)]
    exact queue.events w member
  · intro w member
    rw [same w member]
    exact queue.bytes w member

/-- `BermudaThreadPrioQueueAdd` puts a thread behind those that are at least as important and in front
of the others and keeps the pending events, `BermudaThreadQueueRemove` undoes that, and it changes
nothing where it does not find the thread. -/
theorem prioQueue_inserts (queue : Ordered k r ws) (front : ∀ u, r ≠ .next u) (fresh : t ∉ ws) (real : t ≠ nowhere) :
    (∃ before after l, ws = before ++ after ∧ (bermudaThreadPrioQueueAdd r t).run k = some ((),l) ∧
      (∀ b ∈ before, k.links.prio b ≤ k.links.prio t) ∧ (∀ a ∈ after, k.links.prio t < k.links.prio a) ∧
      l.links.prio = k.links.prio ∧ l.link r ≠ signaled ∧ Ordered l r (before ++ t::after) ∧
      eventsOf l (before ++ t::after) = (eventsOf k ws + if k.link r = signaled then 1 else 0) ∧
      (k.link r ≠ signaled → ∃ m, (bermudaThreadQueueRemove r t).run l = some ((),m) ∧ Ordered m r ws ∧
        m.link r = k.link r ∧ ∀ w ∈ ws, m.links.ec w = k.links.ec w)) ∧
    (bermudaThreadQueueRemove r t).run k = some ((),k) := by
  refine ⟨?_,?_⟩
  · obtain ⟨before,after,l,rfl,runs,ins,-,low,first⟩ := add_inserted queue.queued front fresh
    have high := sorted_high queue.sorted first
    have added := queue.insert front fresh real low high ins
    have busy := (queue.linked front fresh real ins).2
    exact ⟨before,after,l,rfl,runs,low,high,by rw [ins.prio,prepared_links],busy,added,queue.total fresh ins added,
      fun quiet => remove_restores queue front fresh quiet ins added busy⟩
  · rcases queue.queued with ⟨signal,-⟩ | ⟨-,chain⟩
    · simp [bermudaThreadQueueRemove,signal]
    · exact remove_missing chain fresh

/-- Two waiters, the first of which has three pending events, and a thread of a lower number. -/
def twoWaiters : Kernel :=
  {blankKernel [] 0x500 with
    link := fun | .event _ => some 0x200 | .next t => if t = 0x200 then some 0x400 else none | _ => none
    thread := fun t => ⟨[],none,if t = 0x100 then 1 else 2,none,.running,if t = 0x200 then 3 else 0⟩}

theorem prioQueue_inserts_front : ∃ l m,
    (bermudaThreadPrioQueueAdd (.event 0x20) 0x100).run twoWaiters = some ((),l) ∧
    Ordered l (.event 0x20) [0x100,0x200,0x400] ∧ eventsOf l [0x100,0x200,0x400] = 3 ∧
    (bermudaThreadQueueRemove (.event 0x20) 0x100).run l = some ((),m) ∧ Ordered m (.event 0x20) [0x200,0x400] := by
  have busy : twoWaiters.link (.event 0x20) ≠ signaled := by decide
  have queue : Ordered twoWaiters (.event 0x20) [0x200,0x400] :=
    
    ⟨.inr ⟨busy,rfl,rfl,rfl⟩,by decide,List.forall_mem_singleton.mpr (by decide),
      List.forall_mem_cons.mpr ⟨by decide,List.forall_mem_singleton.mpr (by decide)⟩⟩
  obtain ⟨before,after,l,split,runs,low,-,-,-,added,total,undo⟩ :=
    (prioQueue_inserts (t := 0x100) queue nofun (by decide) (by decide)).1
  obtain ⟨m,removes,back,-⟩ := undo busy
  -- both threads have a higher number, so none stands in front of the new one
  have first : before = [] := List.eq_nil_iff_forall_not_mem.mpr fun b member => by
    have inside : b ∈ [0x200,0x400] := split ▸ List.mem_append_left after member
    have high : ∀ b ∈ [0x200,0x400],¬twoWaiters.links.prio b ≤ twoWaiters.links.prio 0x100 :=
      List.forall_mem_cons.mpr ⟨by decide,List.forall_mem_singleton.mpr (by decide)⟩
    exact absurd (low b member) (high b inside)
  subst first
  obtain rfl : [0x200,0x400] = after := split
  rw [if_neg busy] at total
  exact ⟨l,m,runs,added,total,removes,back⟩

end BermudaOS.Sys.Sched
