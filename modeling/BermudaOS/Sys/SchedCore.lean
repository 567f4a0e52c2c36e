import BermudaOS.Sys.SchedLists

/-! The atomic actions keep the core. Inserting and removing a thread edit one link,
found by walking; the events pending on a queue stay with its head. -/
namespace BermudaOS.Sys.Sched
open VirtTimer Lib.Chains

variable {lock : Addr → Prop} {bounded : Prop} {x y : Links} {L M : Lists} {r : Ref} {t : Addr}

namespace Core

/-- A queue's word is its first thread, or it is an empty event queue that is signaled. -/
theorem head (core : Core lock x L) (queue : IsQueue r) :
    x.link r = signaled ∧ L.queue r = [] ∨ x.link r ≠ signaled ∧ x.link r = (L.queue r).head? := by
  by_cases signal : x.link r = signaled
  · exact .inl ⟨signal,core.word r queue signal⟩
  · exact .inr ⟨signal,chain_head (core.chain r queue signal)⟩

theorem unsignaled (core : Core lock x L) (queue : IsQueue r) (busy : L.queue r ≠ []) :
    x.link r ≠ signaled := fun signal => busy (core.word r queue signal)

theorem real_thread (core : Core lock x L) (member : t ∈ L.queue r) : t ≠ nowhere := by
  rintro rfl
  exact core.real (core.known r _ member)

theorem first (core : Core lock x L) {ts : List Addr} (queue : IsQueue r)
    (list : L.queue r = t::ts) : x.link r = some t := by
  rcases core.head queue with ⟨_,empty⟩ | ⟨_,head⟩
  · simp [empty] at list
  · rw [head,list]
    rfl

theorem nodup (core : Core lock x L) (queue : IsQueue r) : (L.queue r).Nodup := by
  by_cases signal : x.link r = signaled
  · rw [core.word r queue signal]
    exact List.nodup_nil
  · exact chain_nodup (core.chain r queue signal)

theorem isQueue (core : Core lock x L) (member : t ∈ L.queue r) : IsQueue r := by
  by_contra other
  simp [core.only r other] at member

theorem unique (left : Core lock x L) (right : Core lock x M) :
    L.queue = M.queue ∧ L.all = M.all := by
  refine ⟨funext fun r => ?_,chain_unique left.all right.all⟩
  by_cases queue : IsQueue r
  · by_cases signal : x.link r = signaled
    · rw [left.word r queue signal,right.word r queue signal]
    · exact chain_unique (left.chain r queue signal) (right.chain r queue signal)
  · rw [left.only r queue,right.only r queue]

theorem idle_ec (core : Core lock x L) (floating : Floating L t) (known : t ∈ L.all)
    (old : L.newborn ≠ some t) : x.ec t = 0 := by
  by_contra events
  obtain ⟨q,rest,list⟩ := core.counts t known old events
  exact floating (.event q) (by simp [list])

theorem old (core : Core lock x L) (member : t ∈ L.queue r) : L.newborn ≠ some t :=
  fun born => core.infant t born r member

theorem rest_ec (core : Core lock x L) {before after : List Addr}
    (list : L.queue r = before ++ t::after) (behind : before ≠ []) : x.ec t = 0 := by
  by_contra events
  have member : t ∈ L.queue r := by simp [list]
  obtain ⟨q,rest,first⟩ := core.counts t (core.known r t member) (core.old member) events
  have same := core.alone r (.event q) t member (by simp [first])
  subst same
  cases before with
  | nil => exact behind rfl
  | cons b before =>
    have nodup := core.nodup (core.isQueue member)
    rw [list] at first nodup
    obtain ⟨rfl,_⟩ := List.cons.inj first
    simp at nodup

end Core

/-- The link that points behind the listed threads of a queue. -/
def spot (r : Ref) (before : List Addr) : Ref := (before.getLast?.map Ref.next).getD r

theorem spot_nil (r : Ref) : spot r [] = r := rfl

theorem spot_append (r : Ref) (before : List Addr) (b : Addr) : spot r (before ++ [b]) = .next b := by
  simp [spot]

theorem chain_insert {p : Option Addr} {before after : List Addr}
    (chain : Chain x.next (x.link r) (before ++ after)) (fresh : t ∉ before ++ after)
    (front : ∀ u, r ≠ .next u) (onward : p = after.head?)
    (edit : y.link = Function.update (Function.update x.link (.next t) p) (spot r before) (some t)) :
    Chain y.next (y.link r) (before ++ t::after) := by
  have own (b : Addr) (other : b ≠ t) (away : Ref.next b ≠ spot r before) : y.next b = x.next b := by
    simp [Links.next,edit,away,other]
  rcases List.eq_nil_or_concat before with rfl | ⟨ahead,b,split⟩
  · have word : y.link r = some t := by simp [edit,spot_nil]
    rw [word]
    refine seg_link_front chain ?_ ?_
    · have away : Ref.next t ≠ r := fun same => front t same.symm
      simp [Links.next,edit,spot_nil,away,onward,chain_head chain]
    · intro u member
      exact own u (fun same => fresh (same ▸ member)) fun same => front u same.symm
  · rw [List.concat_eq_append] at split
    subst split
    have at_b : spot r (ahead ++ [b]) = .next b := spot_append r ahead b
    have distinct : t ≠ b := fun same => fresh (by simp [same])
    have word : y.link r = x.link r := by
      simp [edit,at_b,front]
    have nodup := chain_nodup chain
    simp only [List.append_assoc,List.singleton_append] at chain nodup fresh ⊢
    rw [word]
    refine seg_link_behind chain ?_ ?_ ?_
    · simp [Links.next,edit,at_b]
    · obtain ⟨_,_,_,rest⟩ := (seg_append _ _ _ _ _).mp chain
      simp [Links.next,edit,at_b,distinct,onward,← chain_head rest]
    · intro u member
      refine own u ?_ ?_
      · rintro rfl
        exact fresh (by
          rcases List.mem_append.mp member with early | late
          · simp [early]
          · simp [late])
      · rw [at_b]
        intro same
        injection same with same
        subst same
        exact (List.nodup_cons.mp ((List.perm_middle.nodup_iff).mp nodup)).1 member

theorem chain_remove {before after : List Addr}
    (chain : Chain x.next (x.link r) (before ++ t::after)) (front : ∀ u, r ≠ .next u)
    (edit : y.link = Function.update x.link (spot r before) (x.next t)) :
    Chain y.next (y.link r) (before ++ after) := by
  rcases List.eq_nil_or_concat before with rfl | ⟨ahead,b,split⟩
  · have word : y.link r = x.next t := by simp [edit,spot_nil]
    rw [word]
    refine seg_congr chain.2 fun u _ => ?_
    have away : Ref.next u ≠ r := fun same => front u same.symm
    simp [Links.next,edit,spot_nil,away]
  · rw [List.concat_eq_append] at split
    subst split
    have at_b : spot r (ahead ++ [b]) = .next b := spot_append r ahead b
    have word : y.link r = x.link r := by simp [edit,at_b,front]
    have nodup := chain_nodup chain
    simp only [List.append_assoc,List.singleton_append] at chain nodup ⊢
    rw [word]
    refine seg_drop_behind chain (by simp [Links.next,edit,at_b]) fun u member => ?_
    have apart : u ≠ b := by
      rintro rfl
      refine (List.nodup_cons.mp ((List.perm_middle.nodup_iff).mp nodup)).1 ?_
      rcases List.mem_append.mp member with early | late
      · exact List.mem_append_left _ early
      · exact List.mem_append_right _ (List.mem_cons_of_mem _ late)
    simp [Links.next,edit,at_b,apart]

/-- The counters after `t` was linked in front of `p`. -/
def placeEc (p : Option Addr) (t : Addr) (ec : Addr → Nat) : Addr → Nat :=
  match p with
  | none => ec
  | some n =>
    if ec n = 0 then ec
    else Function.update (Function.update ec t ((ec t + ec n) % 2^8)) n 0

theorem place_links {p : Option Addr} (k : Kernel) (front : r ≠ .next t) :
    (place r p t k).links = {k.links with
      link := Function.update (Function.update k.link (.next t) p) r (some t)
      ec := placeEc p t k.links.ec} ∧ (place r p t k).rest = k.rest := by
  have onward : ((k.setLink (.next t) p).setLink r (some t)).next t = p := by
    simp [Kernel.next,Kernel.setLink,front.symm]
  unfold place
  simp only [onward]
  cases p with
  | none => exact ⟨rfl,rfl⟩
  | some n =>
    dsimp only [placeEc]
    by_cases none_pending : (k.thread n).ec = 0
    · have same : k.links.ec n = 0 := none_pending
      have still : (((k.setLink (.next t) (some n)).setLink r (some t)).thread n).ec = 0 :=
        none_pending
      rw [if_pos still,if_pos same]
      exact ⟨rfl,rfl⟩
    · have same : k.links.ec n ≠ 0 := none_pending
      have still : (((k.setLink (.next t) (some n)).setLink r (some t)).thread n).ec ≠ 0 :=
        none_pending
      rw [if_neg still,if_neg same]
      refine ⟨?_,by simp⟩
      simp only [Kernel.links_setEc,Kernel.links_setLink]
      rfl

/-- `y` is `x` with `t` inserted in queue `r` between the listed threads. An event
that the queue was signaled with stays pending on `t`. -/
structure Inserted (x y : Links) (r : Ref) (t : Addr) (before after : List Addr) : Prop where
  link : y.link = Function.update (Function.update x.link (.next t) after.head?) (spot r before) (some t)
  ec : y.ec = placeEc after.head? t
    (Function.update x.ec t (if x.link r = signaled then 1 else 0))
  prio : y.prio = x.prio
  queue : y.queue = x.queue
  owners : y.owners = x.owners
  arrived : y.arrived = x.arrived
  clock : y.clock = x.clock

/-- A thread that may be inserted there: linked nowhere, and later than all others. -/
structure Ready (x : Links) (L : Lists) (r : Ref) (t : Addr) : Prop where
  isQueue : IsQueue r
  known : t ∈ L.all
  old : L.newborn ≠ some t
  floating : Floating L t
  queue : x.queue t = some r
  latest : ∀ s, ∀ u ∈ L.queue s, x.arrived u < x.arrived t
  stamped : x.arrived t < x.clock

theorem placeEc_other {p : Option Addr} {u : Addr} {ec : Addr → Nat} (own : u ≠ t)
    (next : p ≠ some u) : placeEc p t ec u = ec u := by
  unfold placeEc
  cases p with
  | none => rfl
  | some n =>
    have apart : u ≠ n := fun same => next (congrArg some same.symm)
    dsimp only
    split <;> simp [own,apart]

theorem placeEc_next {n : Addr} {ec : Addr → Nat} : placeEc (some n) t ec n = 0 := by
  unfold placeEc
  dsimp only
  split
  · assumption
  · simp

theorem placeEc_own {n : Addr} {ec : Addr → Nat} (apart : t ≠ n) :
    placeEc (some n) t ec t = if ec n = 0 then ec t else (ec t + ec n) % 2^8 := by
  unfold placeEc
  dsimp only
  split <;> simp [apart]

theorem ne_queue {s : Ref} (queue : IsQueue r) (other : ¬IsQueue s) : s ≠ r :=
  fun same => other (same ▸ queue)

theorem front_queue (queue : IsQueue r) (u : Addr) : r ≠ .next u := by
  rintro rfl
  exact queue

namespace Inserted

variable {before after : List Addr}

theorem outside (ins : Inserted x y r t before after) {u : Addr} (own : u ≠ t)
    (next : after.head? ≠ some u) : y.ec u = x.ec u := by
  rw [ins.ec,placeEc_other own next,Function.update_of_ne own]

/-- The inserted thread takes over the events pending on the one behind it. -/
theorem ec_cases (ins : Inserted x y r t before after) (fresh : t ∉ before ++ after)
    (bytes : ∀ n ∈ after, x.ec n < 2^8) (busy : after ≠ [] → x.link r ≠ signaled) :
    y.ec t = (pending x after + if x.link r = signaled then 1 else 0) ∧
    ∀ u, u ≠ t → y.ec u = if after.head? = some u then 0 else x.ec u := by
  refine ⟨?_,?_⟩
  · cases after with
    | nil =>
      rw [ins.ec]
      simp [placeEc,pending]
    | cons n after =>
      have quiet := busy (List.cons_ne_nil n after)
      have apart : t ≠ n := fun same => fresh (by simp [same])
      have bound := bytes n (by simp)
      rw [ins.ec,List.head?_cons,placeEc_own apart,if_neg quiet]
      simp only [Function.update_self,Function.update_of_ne apart.symm,pending,List.head?_cons,Option.map_some,
        Option.getD_some]
      split <;> omega
  · intro u own
    split
    · next head => rw [ins.ec,head,placeEc_next]
    · next head => exact ins.outside own head

theorem counts (ins : Inserted x y r t before after) (core : Core lock x L)
    (ready : Ready x L r t) (list : L.queue r = before ++ after) :
    (before ≠ [] → y.ec t = 0) ∧
    (before = [] → y.ec t = pending x after + if x.link r = signaled then 1 else 0) ∧
    (∀ u, u ≠ t → y.ec u = if after.head? = some u then 0 else x.ec u) := by
  have fresh : t ∉ before ++ after := list ▸ ready.floating r
  have bytes (n : Addr) (member : n ∈ after) : x.ec n < 2^8 := core.small r n (by simp [list,member])
  have busy (some : L.queue r ≠ []) : x.link r ≠ signaled := core.unsignaled ready.isQueue some
  obtain ⟨own,others⟩ := ins.ec_cases fresh bytes fun some => busy (by simp [list,some])
  refine ⟨fun behind => ?_,fun _ => own,others⟩
  rw [own,if_neg (busy (by simp [list,behind]))]
  cases after with
  | nil => rfl
  | cons n after => simpa [pending] using core.rest_ec list behind

theorem frame (ins : Inserted x y r t before after) {s : Ref} (other : s ≠ r)
    (away : ∀ b, s = .next b → b ≠ t ∧ b ∉ before) : y.link s = x.link s := by
  rw [ins.link,Function.update_of_ne,Function.update_of_ne]
  · intro same
    exact (away t same).1 rfl
  · unfold spot
    cases last : before.getLast? with
    | none => exact other
    | some b =>
      intro same
      exact (away b same).2 (List.mem_of_getLast? last)

theorem chain (ins : Inserted x y r t before after) (core : Core lock x L) (ready : Ready x L r t)
    (list : L.queue r = before ++ after) : Chain y.next (y.link r) (before ++ t::after) := by
  by_cases signal : x.link r = signaled
  · have empty := core.word r ready.isQueue signal
    rw [list,List.append_eq_nil_iff] at empty
    obtain ⟨rfl,rfl⟩ := empty
    refine ⟨by rw [ins.link,spot_nil,Function.update_self],?_⟩
    simp [Links.next,ins.link,spot_nil,(front_queue ready.isQueue t).symm]
  · have chain := core.chain r ready.isQueue signal
    rw [list] at chain
    exact chain_insert chain (list ▸ ready.floating r) (front_queue ready.isQueue) rfl ins.link

theorem word (ins : Inserted x y r t before after) (core : Core lock x L) (ready : Ready x L r t)
    (list : L.queue r = before ++ after) : y.link r ≠ signaled := by
  rw [chain_head (ins.chain core ready list)]
  intro same
  cases before with
  | nil => exact core.real (Option.some.inj same ▸ ready.known)
  | cons b before =>
    exact core.real_thread (show b ∈ L.queue r by simp [list]) (Option.some.inj same)

/-- The members of a queue are the old ones and the inserted thread. -/
theorem member (ready : Ready x L r t) (list : L.queue r = before ++ after) {s : Ref} {u : Addr}
    (inside : u ∈ (L.set r (before ++ t::after)).queue s) : u = t ∧ s = r ∨ u ∈ L.queue s ∧ u ≠ t := by
  have fresh : t ∉ before ++ after := list ▸ ready.floating r
  by_cases other : s = r
  · subst other
    have own : (L.set s (before ++ t::after)).queue s = before ++ t::after := by simp [Lists.set]
    rw [own,List.mem_append,List.mem_cons] at inside
    rcases inside with early | rfl | late
    · exact .inr ⟨by simp [list,early],fun same => fresh (by simp [← same,early])⟩
    · exact .inl ⟨rfl,rfl⟩
    · exact .inr ⟨by simp [list,late],fun same => fresh (by simp [← same,late])⟩
  · have same : (L.set r (before ++ t::after)).queue s = L.queue s := by simp [Lists.set,other]
    rw [same] at inside
    exact .inr ⟨inside,fun same => ready.floating s (same ▸ inside)⟩

/-- The thread is placed behind those as important as itself, which came earlier. -/
theorem sorted (core : Core lock x L) (ready : Ready x L r t) (list : L.queue r = before ++ after)
    (low : ∀ b ∈ before, x.prio b ≤ x.prio t) (high : ∀ a ∈ after, x.prio t < x.prio a) :
    (before ++ t::after).Pairwise (Before x) := by
  obtain ⟨left,right,across⟩ := List.pairwise_append.mp (list ▸ core.sorted r)
  refine List.pairwise_append.mpr ⟨left,List.pairwise_cons.mpr ⟨?_,right⟩,?_⟩
  · exact fun a late => .inl (high a late)
  · intro b early a inside
    rcases List.mem_cons.mp inside with rfl | late
    · have later := ready.latest r b (by simp [list,early])
      rcases Nat.lt_or_eq_of_le (low b early) with less | equal
      · exact .inl less
      · exact .inr ⟨equal,later⟩
    · exact across b early a late

/-- Only in an event queue does the inserted thread take events over. -/
theorem event (ins : Inserted x y r t [] after) (core : Core lock x L) (ready : Ready x L r t) (list : L.queue r = after)
    (events : y.ec t ≠ 0) : ∃ q, r = .event q := by
  obtain ⟨_,front,_⟩ := ins.counts core ready list
  rw [front rfl] at events
  by_cases signal : x.link r = signaled
  · cases r with
    | event q => exact ⟨q,rfl⟩
    | bermudaRunQueue => exact absurd signal core.runWord
    | _ => exact ready.isQueue.elim
  · rw [if_neg signal,Nat.add_zero] at events
    cases after with
    | nil => exact absurd rfl events
    | cons a after =>
      have inside : a ∈ L.queue r := by simp [list]
      obtain ⟨q,rest,first⟩ := core.counts a (core.known r a inside) (core.old inside) events
      exact ⟨q,core.alone r _ a inside (by simp [first])⟩

end Inserted

theorem core_insert {before after : List Addr} (core : Core lock x L) (ready : Ready x L r t)
    (list : L.queue r = before ++ after) (ins : Inserted x y r t before after)
    (low : ∀ b ∈ before, x.prio b ≤ x.prio t) (high : ∀ a ∈ after, x.prio t < x.prio a)
    (held : ∀ q, r = .event q → lock q → x.link r ≠ signaled) :
    Core lock y (L.set r (before ++ t::after)) := by
  obtain ⟨behind,front,others⟩ := ins.counts core ready list
  have lists (s : Ref) (other : s ≠ r) : (L.set r (before ++ t::after)).queue s = L.queue s := by
    simp [Lists.set,other]
  have own : (L.set r (before ++ t::after)).queue r = before ++ t::after := by simp [Lists.set]
  have member {s : Ref} {u : Addr} (inside : u ∈ (L.set r (before ++ t::after)).queue s) :
      u = t ∧ s = r ∨ u ∈ L.queue s ∧ u ≠ t := Inserted.member ready list inside
  have wordFrame {s : Ref} (queue : IsQueue s) (other : s ≠ r) : y.link s = x.link s :=
    ins.frame other fun b same => absurd same (front_queue queue b)
  have nextFrame {u : Addr} (away : u ≠ t) (apart : u ∉ before) : y.next u = x.next u :=
    ins.frame (front_queue ready.isQueue u).symm fun b same => by
      injection same with same
      exact same ▸ ⟨away,apart⟩
  have chainOwn := ins.chain core ready list
  have wordOwn := ins.word core ready list
  have order : Before y = Before x := by
    funext a b
    simp [Before,ins.prio,ins.arrived]
  refine ⟨?_,?_,?_,?_,?_,?_,core.real,?_,?_,?_,?_,?_,?_,?_,?_,?_,?_⟩
  · intro s queue word
    by_cases other : s = r
    · subst other
      rw [own]
      exact chainOwn
    · rw [lists s other]
      rw [wordFrame queue other] at word ⊢
      refine seg_congr (core.chain s queue word) fun u inside => ?_
      refine nextFrame (fun same => ready.floating s (same ▸ inside)) fun early => ?_
      exact other (core.alone s r u inside (by simp [list,early]))
  · intro s queue word
    by_cases other : s = r
    · exact absurd (other ▸ word) wordOwn
    · rw [lists s other]
      exact core.word s queue (wordFrame queue other ▸ word)
  · by_cases other : Ref.bermudaRunQueue = r
    · exact other ▸ wordOwn
    · rw [wordFrame (show IsQueue .bermudaRunQueue from trivial) other]
      exact core.runWord
  · intro s queue
    rw [lists s (fun same => queue (same ▸ ready.isQueue))]
    exact core.only s queue
  · have head : y.link .bermudaThreadHead = x.link .bermudaThreadHead :=
      ins.frame (ne_queue ready.isQueue (by simp [IsQueue])) (by simp)
    have all := core.all
    rw [← head] at all
    refine seg_congr all fun u _ => ?_
    exact ins.frame (ne_queue ready.isQueue (by simp [IsQueue])) (by simp)
  · rw [ins.frame (ne_queue ready.isQueue (by simp [IsQueue])) (by simp)]
    exact core.kill
  · intro s u inside
    rcases member inside with ⟨rfl,_⟩ | ⟨old,_⟩
    · exact ready.known
    · exact core.known s u old
  · intro s v u left right
    rcases member left with ⟨rfl,rfl⟩ | ⟨old,away⟩
    · rcases member right with ⟨_,rfl⟩ | ⟨_,away⟩
      · rfl
      · exact absurd rfl away
    · rcases member right with ⟨rfl,_⟩ | ⟨again,_⟩
      · exact absurd rfl away
      · exact core.alone s v u old again
  · intro s
    rw [order]
    by_cases other : s = r
    · subst other
      rw [own]
      exact Inserted.sorted core ready list low high
    · rw [lists s other]
      exact core.sorted s
  · intro s u inside
    rw [ins.arrived,ins.clock]
    rcases member inside with ⟨rfl,_⟩ | ⟨old,_⟩
    · exact ready.stamped
    · exact core.stamped s u old
  · intro s u inside
    rw [ins.queue]
    rcases member inside with ⟨rfl,rfl⟩ | ⟨old,_⟩
    · exact ready.queue
    · exact core.queued s u old
  · intro u known old events
    by_cases self : u = t
    · subst self
      have none_before : before = [] := by
        by_contra busy
        exact events (behind busy)
      subst none_before
      obtain ⟨q,rfl⟩ := ins.event core ready list events
      exact ⟨q,_,own⟩
    · rw [others u self] at events
      have not_next : after.head? ≠ some u := fun head => events (if_pos head)
      rw [if_neg not_next] at events
      obtain ⟨q,rest,first⟩ := core.counts u known old events
      by_cases same : Ref.event q = r
      · rw [same,list] at first
        cases before with
        | nil =>
          rw [List.nil_append] at first
          exact absurd (by rw [first]; rfl) not_next
        | cons b before =>
          obtain ⟨rfl,rfl⟩ := List.cons.inj first
          exact ⟨q,_,by rw [same,own]; rfl⟩
      · exact ⟨q,rest,by rw [lists _ same]; exact first⟩
  · intro s u inside
    rcases member inside with ⟨rfl,rfl⟩ | ⟨old,away⟩
    · by_cases busy : before = []
      · rw [front busy]
        cases after with
        | nil =>
          simp only [pending,List.head?_nil,Option.map_none,Option.getD_none]
          split <;> decide
        | cons a after =>
          have inside : a ∈ L.queue s := by simp [list]
          rw [if_neg (core.unsignaled ready.isQueue (List.ne_nil_of_mem inside)),Nat.add_zero]
          exact core.small s a inside
      · rw [behind busy]
        decide
    · rw [others u away]
      split
      · decide
      · exact core.small s u old
  · intro u born s inside
    rcases member inside with ⟨rfl,_⟩ | ⟨old,_⟩
    · exact ready.old born
    · exact core.infant u born s old
  · intro q locked
    rw [ins.owners]
    obtain ⟨iff,single⟩ := core.locks q locked
    refine ⟨?_,single⟩
    by_cases same : Ref.event q = r
    · have busy := held q same.symm locked
      rw [← iff,same]
      exact ⟨fun word => absurd word wordOwn,fun word => absurd word busy⟩
    · rw [wordFrame (show IsQueue (.event q) from trivial) same]
      exact iff
  · intro q locked u inside
    rcases member inside with ⟨rfl,rfl⟩ | ⟨old,away⟩
    · by_cases busy : before = []
      · rw [front busy,if_neg (held q rfl locked)]
        cases after with
        | nil => rfl
        | cons a after => exact core.still q locked a (by simp [list])
      · exact behind busy
    · rw [others u away]
      split
      · rfl
      · exact core.still q locked u old

theorem Inserted.still {before after : List Addr} {q : Addr} (ins : Inserted x y r t before after)
    (core : Core lock x L) (ready : Ready x L r t) (list : L.queue r = before ++ after)
    (other : Ref.event q ≠ r) : Still x y q (L.queue (.event q)) := by
  refine ⟨ins.frame other (by simp),?_⟩
  cases waiters : L.queue (.event q) with
  | nil => rfl
  | cons a rest =>
    have inside : a ∈ L.queue (.event q) := by simp [waiters]
    have own : a ≠ t := fun same => ready.floating _ (same ▸ inside)
    have next : after.head? ≠ some a := fun head =>
      other (core.alone _ _ a inside (by simp [list,List.mem_of_head? head]))
    simpa [pending] using ins.outside own next

theorem moved_insert {before after : List Addr} {me q : Addr} (core : Core lock x L)
    (ready : Ready x L r t) (list : L.queue r = before ++ after) (ins : Inserted x y r t before after)
    (low : ∀ b ∈ before, x.prio b ≤ x.prio t) (high : ∀ a ∈ after, x.prio t < x.prio a)
    (mine : r = .event q → t = me) :
    Moved bounded me x y q (L.queue (.event q)) ((L.set r (before ++ t::after)).queue (.event q)) := by
  have fresh : t ∉ before ++ after := list ▸ ready.floating r
  obtain ⟨behind,front,others⟩ := ins.counts core ready list
  have apart (b : Addr) (early : b ∈ before) : b ≠ t ∧ after.head? ≠ some b := by
    refine ⟨fun same => fresh (by simp [← same,early]),fun head => ?_⟩
    have nodup := core.nodup ready.isQueue
    rw [list] at nodup
    exact (List.nodup_append.mp nodup).2.2 b early b (List.mem_of_head? head) rfl
  by_cases same : Ref.event q = r
  · subst same
    have place : before ++ t::after =
        (L.queue (.event q)).orderedInsert (fun t u => x.prio t < x.prio u) t := by
      rw [List.orderedInsert_eq_take_drop,list]
      have passed : ∀ b ∈ before, decide ¬x.prio t < x.prio b = true := fun b early => by
        simpa using low b early
      rw [List.takeWhile_append_of_pos passed,List.dropWhile_append_of_pos passed]
      cases after with
      | nil => simp
      | cons a after => simp [high a (by simp)]
    simp only [Lists.set,Function.update_self]
    refine .join (mine rfl ▸ place) (ins.word core ready list) ?_ (by rw [ins.owners])
    · cases before with
      | nil =>
        rw [list]
        exact front rfl
      | cons b before =>
        obtain ⟨own,next⟩ := apart b (by simp)
        have busy := core.unsignaled ready.isQueue (show L.queue (.event q) ≠ [] by simp [list])
        rw [if_neg busy,list]
        simpa [pending] using ins.outside own next
  · have lists : (L.set r (before ++ t::after)).queue (.event q) = L.queue (.event q) := by
      simp [Lists.set,same]
    rw [lists]
    exact .keep (ins.still core ready list same) (by rw [ins.owners])

/-- `y` is `x` without `t` in queue `r`. Events that were pending on `t` go to the
thread behind it, or signal the queue it leaves empty. -/
structure Removed (x y : Links) (r : Ref) (t : Addr) (before after : List Addr) : Prop where
  link : y.link = Function.update x.link (spot r before)
    (if after = [] ∧ x.ec t ≠ 0 then signaled else after.head?)
  ec : ∀ u, y.ec u = if u = t then 0
    else if after.head? = some u ∧ x.ec t ≠ 0 then x.ec t else x.ec u
  prio : y.prio = x.prio
  queue : y.queue = x.queue
  arrived : y.arrived = x.arrived
  clock : y.clock = x.clock

namespace Removed

variable {before after : List Addr}

theorem frame (rem : Removed x y r t before after) {s : Ref} (other : s ≠ r)
    (away : ∀ b, s = .next b → b ∉ before) : y.link s = x.link s := by
  rw [rem.link,Function.update_of_ne]
  unfold spot
  cases last : before.getLast? with
  | none => exact other
  | some b =>
    intro same
    exact away b same (List.mem_of_getLast? last)

/-- Pending events mean that the thread that leaves was the head. -/
theorem events_head (core : Core lock x L) (list : L.queue r = before ++ t::after)
    (events : x.ec t ≠ 0) : before = [] ∧ ∃ q, r = .event q := by
  have member : t ∈ L.queue r := by simp [list]
  obtain ⟨q,rest,first⟩ := core.counts t (core.known r t member) (core.old member) events
  refine ⟨?_,q,core.alone r _ t member (by simp [first])⟩
  by_contra behind
  exact events (core.rest_ec list behind)

theorem chain_ec (rem : Removed x y r t before after) (core : Core lock x L)
    (list : L.queue r = before ++ t::after) (queue : IsQueue r) :
    (y.link r = signaled → before ++ after = []) ∧
      (y.link r ≠ signaled → Chain y.next (y.link r) (before ++ after)) ∧
      (x.ec t = 0 → y.link r ≠ signaled) := by
  have busy := core.unsignaled queue (show L.queue r ≠ [] by simp [list])
  have chain := core.chain r queue busy
  rw [list] at chain
  have onward : x.next t = after.head? := by
    obtain ⟨_,_,_,rest⟩ := (seg_append _ _ _ _ _).mp chain
    exact chain_head rest
  by_cases last : after = [] ∧ x.ec t ≠ 0
  · obtain ⟨first,_⟩ := events_head core list last.2
    obtain ⟨rfl,events⟩ := last
    subst first
    have word : y.link r = signaled := by
      rw [rem.link,spot_nil,Function.update_self,if_pos ⟨rfl,events⟩]
    exact ⟨fun _ => rfl,fun free => absurd word free,fun zero => absurd zero events⟩
  · have shorter : Chain y.next (y.link r) (before ++ after) := by
      refine chain_remove chain (front_queue queue) ?_
      rw [rem.link,if_neg last,onward]
    have word : y.link r ≠ signaled := by
      rw [chain_head shorter]
      intro same
      have inside := List.mem_of_head? same
      refine core.real_thread (show nowhere ∈ L.queue r from ?_) rfl
      rw [list]
      rcases List.mem_append.mp inside with early | late
      · simp [early]
      · simp [late]
    exact ⟨fun signal => absurd signal word,fun _ => shorter,fun _ => word⟩

theorem carried (rem : Removed x y r t before after) (core : Core lock x L)
    (list : L.queue r = before ++ t::after) (queue : IsQueue r) {q : Addr} (event : r = .event q) :
    Carried x y (before ++ t::after) (before ++ after) q := by
  have nodup := core.nodup queue
  rw [list] at nodup
  subst event
  cases before with
  | nil =>
    have none_before : x.next t = after.head? := by
      have chain := core.chain _ queue (core.unsignaled queue (by simp [list]))
      rw [list] at chain
      exact chain_head chain.2
    refine ⟨fun more => ?_,fun last => ?_⟩
    · cases after with
      | nil => exact absurd rfl more
      | cons a after =>
        have own : a ≠ t := fun same => by simp [same] at nodup
        have zero : x.ec a = 0 := core.rest_ec (show L.queue (.event q) = [t] ++ a::_ from list) (by simp)
        simp only [List.nil_append,pending,List.head?_cons,Option.map_some,Option.getD_some,rem.ec a,
          if_neg own,true_and]
        split <;> omega
    · have empty : after = [] := last
      subst empty
      rw [rem.link,spot_nil,Function.update_self]
      simp only [pending,List.nil_append,List.head?_cons,List.head?_nil,Option.map_some,
        Option.getD_some,true_and]
      by_cases zero : x.ec t = 0 <;> simp [zero]
  | cons b before =>
    have own : b ≠ t := fun same => by simp [same] at nodup
    have zero : x.ec t = 0 := core.rest_ec list (by simp)
    refine ⟨fun _ => ?_,fun last => absurd last (by simp)⟩
    simp [pending,rem.ec b,own,zero]

end Removed

theorem core_remove {before after : List Addr} (core : Core lock x L) (queue : IsQueue r)
    (list : L.queue r = before ++ t::after) (rem : Removed x y r t before after)
    (owners : ∀ q, lock q → (y.owners q = [] ↔ x.owners q = []) ∧ (y.owners q).length ≤ 1) :
    Core lock y (L.set r (before ++ after)) := by
  have nodup := core.nodup queue
  rw [list] at nodup
  have gone : t ∉ before ++ after := (List.nodup_cons.mp ((List.perm_middle.nodup_iff).mp nodup)).1
  obtain ⟨signals,chained,quiet⟩ := rem.chain_ec core list queue
  have lists (s : Ref) (other : s ≠ r) : (L.set r (before ++ after)).queue s = L.queue s := by
    simp [Lists.set,other]
  have own : (L.set r (before ++ after)).queue r = before ++ after := by simp [Lists.set]
  have inside_t : t ∈ L.queue r := by simp [list]
  have member {s : Ref} {u : Addr} (inside : u ∈ (L.set r (before ++ after)).queue s) :
      u ∈ L.queue s ∧ u ≠ t := by
    by_cases other : s = r
    · subst other
      rw [own] at inside
      refine ⟨?_,fun same => gone (same ▸ inside)⟩
      rw [list]
      rcases List.mem_append.mp inside with early | late
      · simp [early]
      · simp [late]
    · rw [lists s other] at inside
      exact ⟨inside,fun same => other (core.alone s r t (same ▸ inside) inside_t)⟩
  have wordFrame {s : Ref} (queue : IsQueue s) (other : s ≠ r) : y.link s = x.link s :=
    rem.frame other fun b same => absurd same (front_queue queue b)
  have order : Before y = Before x := by
    funext a b
    simp [Before,rem.prio,rem.arrived]
  have busy := core.unsignaled queue (show L.queue r ≠ [] by simp [list])
  refine ⟨?_,?_,?_,?_,?_,?_,core.real,?_,?_,?_,?_,?_,?_,?_,?_,?_,?_⟩
  · intro s queue word
    by_cases other : s = r
    · subst other
      rw [own]
      exact chained word
    · rw [lists s other]
      rw [wordFrame queue other] at word ⊢
      refine seg_congr (core.chain s queue word) fun u inside => ?_
      refine rem.frame (front_queue ‹IsQueue r› u).symm fun b same early => ?_
      injection same with same
      subst same
      exact other (core.alone s r u inside (by simp [list,early]))
  · intro s queue word
    by_cases other : s = r
    · subst other
      rw [own]
      exact signals word
    · rw [lists s other]
      exact core.word s queue (wordFrame queue other ▸ word)
  · by_cases other : Ref.bermudaRunQueue = r
    · subst other
      refine quiet ?_
      by_contra events
      obtain ⟨_,q,absurd⟩ := Removed.events_head core list events
      cases absurd
    · rw [wordFrame (show IsQueue .bermudaRunQueue from trivial) other]
      exact core.runWord
  · intro s other
    rw [lists s (fun same => other (same ▸ queue))]
    exact core.only s other
  · have head : y.link .bermudaThreadHead = x.link .bermudaThreadHead :=
      rem.frame (ne_queue queue (by simp [IsQueue])) (by simp)
    have all := core.all
    rw [← head] at all
    refine seg_congr all fun u _ => ?_
    exact rem.frame (ne_queue queue (by simp [IsQueue])) (by simp)
  · rw [rem.frame (ne_queue queue (by simp [IsQueue])) (by simp)]
    exact core.kill
  · intro s u inside
    exact core.known s u (member inside).1
  · intro s v u left right
    exact core.alone s v u (member left).1 (member right).1
  · intro s
    rw [order]
    have sorted := core.sorted s
    by_cases other : s = r
    · subst other
      rw [own]
      rw [list] at sorted
      exact sorted.sublist (by simp)
    · rw [lists s other]
      exact sorted
  · intro s u inside
    rw [rem.arrived,rem.clock]
    exact core.stamped s u (member inside).1
  · intro s u inside
    rw [rem.queue]
    exact core.queued s u (member inside).1
  · intro u known old events
    rw [rem.ec u] at events
    by_cases self : u = t
    · exact absurd (if_pos self) events
    · rw [if_neg self] at events
      by_cases passed : after.head? = some u ∧ x.ec t ≠ 0
      · obtain ⟨rfl,q,rfl⟩ := Removed.events_head core list passed.2
        obtain ⟨rest,split⟩ : ∃ rest, after = u::rest := by
          cases after with
          | nil => simp at passed
          | cons a after => exact ⟨after,by simpa using passed.1⟩
        exact ⟨q,rest,by rw [own,split]; rfl⟩
      · rw [if_neg passed] at events
        obtain ⟨q,rest,first⟩ := core.counts u known old events
        by_cases same : Ref.event q = r
        · rw [same,list] at first
          cases before with
          | nil => exact absurd (List.cons.inj first).1.symm self
          | cons b before =>
            obtain ⟨rfl,_⟩ := List.cons.inj first
            exact ⟨q,_,by rw [same,own]; rfl⟩
        · exact ⟨q,rest,by rw [lists _ same]; exact first⟩
  · intro s u inside
    obtain ⟨old,away⟩ := member inside
    rw [rem.ec u,if_neg away]
    split
    · exact core.small r t inside_t
    · exact core.small s u old
  · intro u born s inside
    exact core.infant u born s (member inside).1
  · intro q locked
    obtain ⟨iff,_⟩ := core.locks q locked
    obtain ⟨same_owners,single⟩ := owners q locked
    refine ⟨?_,single⟩
    rw [same_owners,← iff]
    by_cases same : Ref.event q = r
    · subst same
      have word := quiet (core.still q locked t inside_t)
      exact ⟨fun signal => absurd signal word,fun signal => absurd signal busy⟩
    · rw [wordFrame (show IsQueue (.event q) from trivial) same]
  · intro q locked u inside
    obtain ⟨old,away⟩ := member inside
    rw [rem.ec u,if_neg away]
    split
    · next passed =>
      by_cases same : Ref.event q = r
      · subst same
        exact core.still q locked t inside_t
      · refine absurd (core.alone (.event q) r u old ?_) same
        rw [list]
        simp [List.mem_of_head? passed.1]
    · exact core.still q locked u old

theorem Removed.still {before after : List Addr} {q : Addr} (rem : Removed x y r t before after)
    (core : Core lock x L) (list : L.queue r = before ++ t::after) (other : Ref.event q ≠ r) :
    Still x y q (L.queue (.event q)) := by
  refine ⟨rem.frame other (by simp),?_⟩
  cases waiters : L.queue (.event q) with
  | nil => rfl
  | cons a rest =>
    have inside : a ∈ L.queue (.event q) := by simp [waiters]
    have own : a ≠ t := fun same => other (core.alone _ r a inside (by simp [list,same]))
    have next : after.head? ≠ some a := fun head =>
      other (core.alone _ r a inside (by simp [list,List.mem_of_head? head]))
    simp [pending,rem.ec a,own,next]

theorem moved_other {before after : List Addr} {me q : Addr} (core : Core lock x L)
    (list : L.queue r = before ++ t::after) (rem : Removed x y r t before after)
    (owners : y.owners q = x.owners q) (other : Ref.event q ≠ r) :
    Moved bounded me x y q (L.queue (.event q)) ((L.set r (before ++ after)).queue (.event q)) := by
  have lists : (L.set r (before ++ after)).queue (.event q) = L.queue (.event q) := by
    simp [Lists.set,other]
  rw [lists]
  exact .keep (rem.still core list other) owners

/-- The head of an event queue leaves, and the running thread hands over to it. -/
theorem moved_wake {after : List Addr} {me p q : Addr} (core : Core lock x L)
    (list : L.queue (.event p) = t::after) (rem : Removed x y (.event p) t [] after)
    (owners : y.owners = Function.update x.owners p (t::(x.owners p).erase me)) :
    Moved bounded me x y q (L.queue (.event q)) ((L.set (.event p) after).queue (.event q)) := by
  by_cases same : q = p
  · subst same
    rw [list]
    simp only [Lists.set,Function.update_self]
    exact .wake (rem.carried core list trivial rfl) (by rw [owners,Function.update_self])
  · refine moved_other core (show L.queue _ = [] ++ t::after from list) rem ?_ (by simpa using same)
    rw [owners,Function.update_of_ne same]

theorem moved_timeout {before after : List Addr} {me p q : Addr} (core : Core lock x L)
    (list : L.queue (.event p) = before ++ t::after) (rem : Removed x y (.event p) t before after)
    (owners : y.owners = x.owners) :
    Moved bounded me x y q (L.queue (.event q)) ((L.set (.event p) (before ++ after)).queue (.event q)) := by
  by_cases same : q = p
  · subst same
    rw [list]
    simp only [Lists.set,Function.update_self]
    refine .timeout (t := t) (by simp) ?_ (rem.carried core list trivial rfl) (by rw [owners])
    have nodup := core.nodup (r := .event q) trivial
    rw [list] at nodup
    have early : t ∉ before := fun inside =>
      (List.nodup_append.mp nodup).2.2 t inside t (by simp) rfl
    rw [List.erase_append_right _ early,List.erase_cons_head]
  · exact moved_other core list rem (by rw [owners]) (by simpa using same)

/-- `y` is `x` but for what only the thread `t` is linked with or carries. -/
structure Touched (x y : Links) (L : Lists) (t : Addr) : Prop where
  link : ∀ s, s ≠ .next t → s ≠ .qNext t ∨ t ∈ L.all → y.link s = x.link s
  qNext : t ∈ L.all → y.link (.qNext t) = x.link (.qNext t)
  prio : ∀ u, u ≠ t → y.prio u = x.prio u
  ec : ∀ u, u ≠ t → y.ec u = x.ec u
  queue : ∀ u, u ≠ t → y.queue u = x.queue u
  arrived : ∀ u, u ≠ t → y.arrived u = x.arrived u
  owners : y.owners = x.owners
  clock : x.clock ≤ y.clock

/-- A thread that is in no queue can be changed freely, as long as no event is
pending on it. -/
theorem core_touch (core : Core lock x L) (floating : Floating L t) (touched : Touched x y L t)
    (zero : t ∈ L.all → L.newborn ≠ some t → y.ec t = 0) : Core lock y L := by
  have apart {s : Ref} {u : Addr} (inside : u ∈ L.queue s) : u ≠ t :=
    fun same => floating s (same ▸ inside)
  have word {s : Ref} (queue : IsQueue s) : y.link s = x.link s :=
    touched.link s (front_queue queue t) (.inl (by rintro rfl; exact queue))
  have order {s : Ref} {a b : Addr} (first : a ∈ L.queue s) (second : b ∈ L.queue s) :
      Before y a b ↔ Before x a b := by
    simp only [Before,touched.prio a (apart first),touched.prio b (apart second),
      touched.arrived a (apart first),touched.arrived b (apart second)]
  refine ⟨?_,?_,?_,core.only,?_,?_,core.real,core.known,core.alone,?_,?_,?_,?_,?_,core.infant,?_,?_⟩
  · intro s queue free
    rw [word queue] at free ⊢
    refine seg_congr (core.chain s queue free) fun u inside => ?_
    exact touched.link _ (by simpa using apart inside) (.inl (by simp))
  · intro s queue signal
    exact core.word s queue (word queue ▸ signal)
  · rw [word (show IsQueue .bermudaRunQueue from trivial)]
    exact core.runWord
  · have all := core.all
    rw [← touched.link .bermudaThreadHead (by simp) (.inl (by simp))] at all
    refine seg_congr all fun u inside => ?_
    by_cases same : u = t
    · subst same
      exact touched.qNext inside
    · exact touched.link _ (by simp) (.inl (by simpa using same))
  · rw [touched.link _ (by simp) (.inl (by simp))]
    exact core.kill
  · intro s
    exact (core.sorted s).imp_of_mem fun first second before => (order first second).mpr before
  · intro s u inside
    rw [touched.arrived u (apart inside)]
    exact lt_of_lt_of_le (core.stamped s u inside) touched.clock
  · intro s u inside
    rw [touched.queue u (apart inside)]
    exact core.queued s u inside
  · intro u known old events
    by_cases same : u = t
    · subst same
      exact absurd (zero known old) events
    · rw [touched.ec u same] at events
      exact core.counts u known old events
  · intro s u inside
    rw [touched.ec u (apart inside)]
    exact core.small s u inside
  · intro q locked
    rw [word (show IsQueue (.event q) from trivial),touched.owners]
    exact core.locks q locked
  · intro q locked u inside
    rw [touched.ec u (apart inside)]
    exact core.still q locked u inside

theorem Touched.still {q : Addr} (touched : Touched x y L t) (floating : Floating L t) :
    Still x y q (L.queue (.event q)) := by
  refine ⟨touched.link _ (by simp) (.inl (by simp)),?_⟩
  cases waiters : L.queue (.event q) with
  | nil => rfl
  | cons a rest =>
    have own : a ≠ t := fun same => floating (.event q) (by simp [waiters,← same])
    simp [pending,touched.ec a own]

theorem moved_touch {me q : Addr} (floating : Floating L t) (touched : Touched x y L t) :
    Moved bounded me x y q (L.queue (.event q)) (L.queue (.event q)) :=
  .keep (touched.still floating) (by rw [touched.owners])

theorem core_word {q : Addr} {p : Option Addr} (core : Core lock x L)
    (empty : L.queue (.event q) = []) (word : p = none ∨ p = signaled)
    (link : y.link = Function.update x.link (.event q) p) (prio : y.prio = x.prio)
    (ec : y.ec = x.ec) (queue : y.queue = x.queue) (arrived : y.arrived = x.arrived)
    (clock : y.clock = x.clock) (owners : ∀ o, o ≠ q → y.owners o = x.owners o)
    (locked : lock q → (p = signaled ↔ y.owners q = []) ∧ (y.owners q).length ≤ 1) :
    Core lock y L := by
  have frame {s : Ref} (other : s ≠ .event q) : y.link s = x.link s := by simp [link,other]
  have own : y.link (.event q) = p := by simp [link]
  have order : Before y = Before x := by
    funext a b
    simp [Before,prio,arrived]
  refine ⟨?_,?_,?_,core.only,?_,?_,core.real,core.known,core.alone,?_,?_,?_,?_,?_,core.infant,?_,?_⟩
  · intro s queue free
    by_cases same : s = .event q
    · subst same
      rw [empty,own]
      rcases word with rfl | rfl
      · rfl
      · exact absurd own free
    · rw [frame same] at free ⊢
      exact seg_congr (core.chain s queue free) fun u _ => frame (by simp)
  · intro s queue signal
    by_cases same : s = .event q
    · exact same ▸ empty
    · exact core.word s queue (frame same ▸ signal)
  · rw [frame (by simp)]
    exact core.runWord
  · have all := core.all
    rw [← frame (s := .bermudaThreadHead) (by simp)] at all
    exact seg_congr all fun u _ => frame (by simp)
  · rw [frame (by simp)]
    exact core.kill
  · rw [order]
    exact core.sorted
  · rw [arrived,clock]
    exact core.stamped
  · rw [queue]
    exact core.queued
  · rw [ec]
    exact core.counts
  · rw [ec]
    exact core.small
  · intro o locks
    by_cases same : o = q
    · subst same
      rw [own]
      exact locked locks
    · rw [frame (by simpa using same),owners o same]
      exact core.locks o locks
  · rw [ec]
    exact core.still

theorem core_count {q : Addr} {rest : List Addr} {n : Nat} (core : Core lock x L)
    (list : L.queue (.event q) = t::rest) (unlocked : ¬lock q) (bound : n < 2^8)
    (result : y = {x with ec := Function.update x.ec t n}) : Core lock y L := by
  subst result
  have member : t ∈ L.queue (.event q) := by simp [list]
  refine ⟨core.chain,core.word,core.runWord,core.only,core.all,core.kill,core.real,core.known,
    core.alone,core.sorted,core.stamped,core.queued,?_,?_,core.infant,core.locks,?_⟩
  · intro u known old events
    by_cases same : u = t
    · exact ⟨q,rest,by rw [same,list]⟩
    · exact core.counts u known old (by simpa [same] using events)
  · intro s u inside
    by_cases same : u = t
    · simpa [same] using bound
    · simpa [same] using core.small s u inside
  · intro o locked u inside
    by_cases same : u = t
    · subst same
      have equal := core.alone _ _ u inside member
      injection equal with equal
      exact absurd (equal ▸ locked) unlocked
    · simpa [same] using core.still o locked u inside

theorem moved_keep {me q : Addr} {ws : List Addr} (link : y.link = x.link) (ec : y.ec = x.ec)
    (owners : y.owners = x.owners) : Moved bounded me x y q ws ws :=
  .keep ⟨by rw [link],by rw [pending,pending,ec]⟩ (by rw [owners])

end BermudaOS.Sys.Sched
