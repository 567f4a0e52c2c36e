import BermudaOS.Fs.Stdio

/-! Runs of the open-file table. `open` takes the first slot that is free or already
holds the file, so a free slot in front of an open file hides it; in the runs where
that never happens every file stays in the one slot that its descriptor names. -/
namespace BermudaOS.Fs
open Sys.VirtTimer Lib.Chains

variable {Handler : Type} {s t : Stdio Handler} {fname : List Char} {fmode : Nat} {c f : Addr}
  {i j : Slot} {fs : List Addr}

/-- A file of the name is open. -/
def IsOpen (s : Stdio Handler) (fname : List Char) : Prop :=
  ∃ i f, 3 ≤ i ∧ s.iob i = some f ∧ s.name f = fname

/-- The files that can be opened. -/
def CanOpen (s : Stdio Handler) (f : Addr) : Prop := ∃ fs, Chain s.next s.vfsHead fs ∧ f ∈ fs

/-- A file of the name can be opened, and no slot is free in front of one that holds
a file of the name. -/
def Findable (s : Stdio Handler) (fname : List Char) : Prop :=
  (∃ f, CanOpen s f ∧ s.name f = fname) ∧
    ∃ i f, 3 ≤ i ∧ s.iob i = some f ∧ s.name f = fname ∧ ∀ j, 3 ≤ j → j < i → s.iob j ≠ none

/-- `open` of the name returns a descriptor of it and takes no slot. -/
def Existing (s : Stdio Handler) (fname : List Char) : Prop :=
  ∀ fmode, ∃ t i f, openFile fname fmode s = some (t,((i : Slot) : Int)) ∧ 3 ≤ i ∧
    s.iob i = some f ∧ s.name f = fname ∧ t.iob = s.iob

/-- Every open file is in the slot of its descriptor, and in no other. -/
structure Consistent (s : Stdio Handler) : Prop where
  fd : ∀ i f, 3 ≤ i → s.iob i = some f → (s.file f).fd = i
  single : ∀ i j f, 3 ≤ i → 3 ≤ j → s.iob i = some f → s.iob j = some f → i = j

/-- The operations on the table, `open` only of the names that `plain` accepts. The
memory of a file that is neither open nor listed may be used anew. -/
inductive Step (result : Handler → Addr → Int) (plain : Stdio Handler → List Char → Prop) :
    Stdio Handler → Stdio Handler → Prop
  | vfsAdd {s : Stdio Handler} {f : Addr} (distinct : ∀ g, CanOpen s g → s.name g ≠ s.name f) :
      Step result plain s (vfsAdd f s)
  | openFile {s t : Stdio Handler} {fname : List Char} {fmode : Nat} {rc : Int}
      (allowed : plain s fname) (run : openFile fname fmode s = some (t,rc)) : Step result plain s t
  | iobAdd {s : Stdio Handler} {f : Addr} (closed : ∀ i, s.iob i ≠ some f) :
      Step result plain s (iobAdd f s).1
  | close {s : Stdio Handler} {fd : Slot} (opened : s.iob fd ≠ none) :
      Step result plain s (close result fd s).1
  | renew {s : Stdio Handler} {f : Addr} (g : File Handler) (closed : ∀ i, s.iob i ≠ some f)
      (unlisted : ¬CanOpen s f) : Step result plain s (s.update f fun _ => g)

inductive Reachable (result : Handler → Addr → Int) (plain : Stdio Handler → List Char → Prop) :
    Stdio Handler → Prop
  | init (file : Addr → File Handler) : Reachable result plain (vfsInit file)
  | step {s t : Stdio Handler} (reach : Reachable result plain s) (step : Step result plain s t) :
      Reachable result plain t

theorem mem_slots : i ∈ slots ↔ 3 ≤ i := by
  revert i
  decide

theorem slots_sorted : slots.Pairwise (· < ·) := by decide

/-- Where the scan of `open` stops. -/
def Stops (s : Stdio Handler) (fname : List Char) (i : Slot) : Prop :=
  ∀ f, s.iob i = some f → s.name f = fname

theorem openScan_cases (s : Stdio Handler) (fname : List Char) (fmode : Nat) (c : Addr) (is : List Slot) :
    (∀ i ∈ is, ¬Stops s fname i) ∧ openScan fname fmode c s is = none ∨
    ∃ before i after, is = before ++ i::after ∧ (∀ j ∈ before, ¬Stops s fname j) ∧
      ((s.iob i = none ∧ openScan fname fmode c s is =
          some (((((s.setSlot i (some c)).setFd c i).setFlags c fmode)),i)) ∨
        ∃ f, s.iob i = some f ∧ s.name f = fname ∧
          openScan fname fmode c s is = some (s.setFlags f fmode,i)) := by
  induction is with
  | nil => exact .inl ⟨by simp,rfl⟩
  | cons i rest ih =>
    cases slot : s.iob i with
    | none =>
      refine .inr ⟨[],i,rest,rfl,by simp,.inl ⟨slot,?_⟩⟩
      simp [openScan,slot,mode,Stdio.setSlot,Stdio.setFd,Stdio.update]
    | some f =>
      by_cases named : s.name f = fname
      · refine .inr ⟨[],i,rest,rfl,by simp,.inr ⟨f,slot,named,?_⟩⟩
        simp [openScan,slot,named,mode]
      · have away : ¬Stops s fname i := fun stops => named (stops f slot)
        have skip : openScan fname fmode c s (i::rest) = openScan fname fmode c s rest := by
          simp [openScan,slot,named]
        rw [skip]
        rcases ih with ⟨none_stops,missed⟩ | ⟨before,k,after,rfl,early,found⟩
        · refine .inl ⟨?_,missed⟩
          intro k member
          rcases List.mem_cons.mp member with rfl | later
          · exact away
          · exact none_stops k later
        · refine .inr ⟨i::before,k,after,rfl,?_,found⟩
          intro k member
          rcases List.mem_cons.mp member with rfl | later
          · exact away
          · exact early k later

/-- What `open` does for a file that it finds in the list. -/
def opened (fname : List Char) (fmode : Nat) (c : Addr) (s : Stdio Handler) : Stdio Handler × Int :=
  match openScan fname fmode c s slots with
  | some (t,i) => (t,i)
  | none => (s,-1)

theorem openWalk_found {fuel : Nat} {p : Option Addr} (chain : Chain s.next p fs)
    (distinct : (fs.map s.name).Nodup) (enough : fs.length ≤ fuel) :
    openWalk fname fmode s fuel p =
      some ((fs.find? fun f => s.name f = fname).elim (s,-1) fun c => opened fname fmode c s) := by
  induction fs generalizing p fuel with
  | nil =>
    obtain rfl : p = none := chain
    cases fuel <;> rfl
  | cons c fs ih =>
    obtain ⟨rfl,rest⟩ := chain
    obtain ⟨fuel,rfl⟩ : ∃ n, fuel = n + 1 := ⟨fuel - 1,by simp at enough; omega⟩
    obtain ⟨fresh,distinct⟩ := List.nodup_cons.mp distinct
    have onward := ih rest distinct (by simpa using enough)
    by_cases named : s.name c = fname
    · have none_left : fs.find? (fun f => s.name f = fname) = none := by
        simp only [List.find?_eq_none,decide_eq_true_eq]
        intro f member same
        exact fresh (List.mem_map.mpr ⟨f,member,same.trans named.symm⟩)
      rw [none_left] at onward
      simp only [openWalk,named,if_true,List.find?_cons,decide_true,opened,Option.elim_some]
      cases openScan fname fmode c s slots with
      | none => exact onward
      | some found => rfl
    · simp only [openWalk,onward,List.find?_cons,named,decide_false,if_false]

theorem chain_short {p : Option Addr} (chain : Chain s.next p fs) : fs.length ≤ addrLimit := by
  simpa [addrLimit] using chain_card chain

theorem canOpen_iff (chain : Chain s.next s.vfsHead fs) : CanOpen s f ↔ f ∈ fs := by
  refine ⟨?_,fun member => ⟨fs,chain,member⟩⟩
  rintro ⟨gs,also,member⟩
  rwa [chain_unique chain also]

/-- The files that can be opened are listed once, under different names. -/
structure Listed (s : Stdio Handler) (fs : List Addr) : Prop where
  chain : Chain s.next s.vfsHead fs
  distinct : (fs.map s.name).Nodup

theorem openFile_cases (fname : List Char) (fmode : Nat) (listed : Listed s fs) :
    (openFile fname fmode s = some (s,-1) ∧
      ((∀ f ∈ fs, s.name f ≠ fname) ∨ ∀ i, 3 ≤ i → ¬Stops s fname i)) ∨
    ∃ c ∈ fs, s.name c = fname ∧ ∃ i : Slot, 3 ≤ i ∧ (∀ j, 3 ≤ j → j < i → ¬Stops s fname j) ∧
      ((s.iob i = none ∧ openFile fname fmode s =
          some (((s.setSlot i (some c)).setFd c i).setFlags c fmode,(i : Int))) ∨
        ∃ f, s.iob i = some f ∧ s.name f = fname ∧
          openFile fname fmode s = some (s.setFlags f fmode,(i : Int))) := by
  have walk : openFile fname fmode s = _ :=
    openWalk_found listed.chain listed.distinct (chain_short listed.chain)
  rw [walk]
  cases found : fs.find? fun f => s.name f = fname with
  | none =>
    refine .inl ⟨rfl,.inl fun f member => ?_⟩
    simpa using List.find?_eq_none.mp found f member
  | some c =>
    have member := List.mem_of_find?_eq_some found
    have named : s.name c = fname := by simpa using List.find?_some found
    rcases openScan_cases s fname fmode c slots with
      ⟨none_stops,missed⟩ | ⟨before,i,after,split,early,stop⟩
    · refine .inl ⟨by simp [opened,missed],.inr fun i high => none_stops i (mem_slots.mpr high)⟩
    · have high : 3 ≤ i := mem_slots.mp (by simp [split])
      have sorted := slots_sorted
      rw [split,List.pairwise_append] at sorted
      refine .inr ⟨c,member,named,i,high,fun j low less => early j ?_,?_⟩
      · have inside : j ∈ before ++ i::after := split ▸ mem_slots.mpr low
        rcases List.mem_append.mp inside with front | back
        · exact front
        · rcases List.mem_cons.mp back with rfl | late
          · exact absurd less (Nat.lt_irrefl _)
          · exact absurd (List.rel_of_pairwise_cons sorted.2.1 late) (Nat.lt_asymm less)
      · rcases stop with ⟨free,result⟩ | ⟨f,holds,same,result⟩
        · exact .inl ⟨free,by simp [opened,result]⟩
        · exact .inr ⟨f,holds,same,by simp [opened,result]⟩

theorem listed_congr (listed : Listed s fs) (head : t.vfsHead = s.vfsHead)
    (nexts : ∀ f ∈ fs, t.next f = s.next f) (names : ∀ f ∈ fs, t.name f = s.name f) :
    Listed t fs := by
  refine ⟨seg_congr (head ▸ listed.chain) nexts,?_⟩
  rw [List.map_congr_left names]
  exact listed.distinct

/-- Opening and closing change descriptors and flags only. -/
def SameNames (s t : Stdio Handler) : Prop :=
  t.vfsHead = s.vfsHead ∧ ∀ f, t.next f = s.next f ∧ t.name f = s.name f

theorem setFd_same (s : Stdio Handler) (c : Addr) (fd : Int) : SameNames s (s.setFd c fd) := by
  refine ⟨rfl,fun f => ?_⟩
  by_cases same : f = c <;> simp [Stdio.setFd,Stdio.update,Stdio.next,Stdio.name,same]

theorem setFlags_same (s : Stdio Handler) (c : Addr) (flags : Nat) :
    SameNames s (s.setFlags c flags) := by
  refine ⟨rfl,fun f => ?_⟩
  by_cases same : f = c <;> simp [Stdio.setFlags,Stdio.update,Stdio.next,Stdio.name,same]

theorem SameNames.listed (same : SameNames s t) (listed : Listed s fs) : Listed t fs :=
  listed_congr listed same.1 (fun f _ => (same.2 f).1) fun f _ => (same.2 f).2

theorem Consistent.take (consistent : Consistent s) (closed : ∀ j, 3 ≤ j → s.iob j ≠ some c) :
    Consistent ((s.setSlot i (some c)).setFd c i) := by
  have fds (k : Slot) (f : Addr) (high : 3 ≤ k)
      (holds : ((s.setSlot i (some c)).setFd c i).iob k = some f) :
      (((s.setSlot i (some c)).setFd c i).file f).fd = k := by
    by_cases same : k = i
    · subst same
      have own : some c = some f := by simpa [Stdio.setFd,Stdio.setSlot,Stdio.update] using holds
      cases own
      simp [Stdio.setFd,Stdio.setSlot,Stdio.update]
    · have old : s.iob k = some f := by
        simpa [Stdio.setFd,Stdio.setSlot,Stdio.update,same] using holds
      have other : f ≠ c := by
        rintro rfl
        exact closed k high old
      simpa [Stdio.setFd,Stdio.setSlot,Stdio.update,other] using consistent.fd k f high old
  refine ⟨fds,fun k l f high low left right => ?_⟩
  have equal := (fds k f high left).symm.trans (fds l f low right)
  exact Fin.ext (by exact_mod_cast equal)

theorem Consistent.flags (consistent : Consistent s) (c : Addr) (flags : Nat) :
    Consistent (s.setFlags c flags) := by
  refine ⟨fun i f high holds => ?_,fun i j f high low left right =>
    consistent.single i j f high low left right⟩
  have kept : ((s.setFlags c flags).file f).fd = (s.file f).fd := by
    by_cases same : f = c <;> simp [Stdio.setFlags,Stdio.update,same]
  exact kept.trans (consistent.fd i f high holds)

theorem addScan_cases (s : Stdio Handler) (c : Addr) (is : List Slot) :
    addScan c s is = (s,-1) ∨
      ∃ i ∈ is, s.iob i = none ∧ addScan c s is = ((s.setSlot i (some c)).setFd c i,(i : Int)) := by
  induction is with
  | nil => exact .inl rfl
  | cons i rest ih =>
    cases slot : s.iob i with
    | none => exact .inr ⟨i,by simp,slot,by simp [addScan,slot]⟩
    | some f =>
      have skip : addScan c s (i::rest) = addScan c s rest := by simp [addScan,slot]
      rw [skip]
      rcases ih with full | ⟨j,member,free,result⟩
      · exact .inl full
      · exact .inr ⟨j,by simp [member],free,result⟩

theorem addScan_free {s : Stdio Handler} {c : Addr} {is : List Slot} (full : addScan c s is = (s,-1)) :
    ∀ i ∈ is,s.iob i ≠ none := by
  induction is with
  | nil => exact fun _ member => nomatch member
  | cons i rest ih =>
    cases slot : s.iob i with
    | none =>
      have result := congrArg Prod.snd full
      simp only [addScan,slot] at result
      omega
    | some f =>
      simp only [addScan,slot] at full
      intro j member
      rcases List.mem_cons.mp member with rfl | later
      · simp [slot]
      · exact ih full j later

theorem Findable.first (findable : Findable s fname) (high : 3 ≤ i)
    (early : ∀ j, 3 ≤ j → j < i → ¬Stops s fname j) : s.iob i ≠ none := by
  intro free
  obtain ⟨_,h,f,tall,holds,named,before⟩ := findable
  have stops : Stops s fname h := by
    intro g also
    rw [holds] at also
    cases also
    exact named
  rcases Nat.lt_trichotomy i.val h.val with less | same | more
  · exact before i high less free
  · rw [Fin.ext same,holds] at free
    cases free
  · exact early h tall more stops

theorem openFile_consistent (listed : Listed s fs) (consistent : Consistent s)
    (plain : IsOpen s fname → Findable s fname) {rc : Int}
    (run : openFile fname fmode s = some (t,rc)) : Consistent t ∧ Listed t fs := by
  rcases openFile_cases fname fmode listed with
    ⟨missed,_⟩ | ⟨c,_,named,i,high,early,stop⟩
  · rw [missed] at run
    cases run
    exact ⟨consistent,listed⟩
  · rcases stop with ⟨free,result⟩ | ⟨f,_,_,result⟩
    · rw [result] at run
      cases run
      have closed (j : Slot) (tall : 3 ≤ j) : s.iob j ≠ some c := fun holds =>
        (plain ⟨j,c,tall,holds,named⟩).first high early free
      refine ⟨(consistent.take closed).flags c fmode,?_⟩
      exact (setFlags_same _ _ _).listed ((setFd_same _ _ _).listed ⟨listed.chain,listed.distinct⟩)
    · rw [result] at run
      cases run
      exact ⟨consistent.flags f fmode,(setFlags_same _ _ _).listed listed⟩

/-- `open` of an open name finds it exactly if nothing hides it. -/
theorem existing_iff (listed : Listed s fs) :
    Existing s fname ↔ Findable s fname := by
  refine ⟨fun existing => ?_,fun findable fmode => ?_⟩
  · obtain ⟨t,i,f,run,high,holds,named,same⟩ := existing 0
    rcases openFile_cases fname 0 listed with
      ⟨missed,_⟩ | ⟨c,member,title,k,tall,early,stop⟩
    · rw [missed] at run
      injection run with run
      have negative : (-1 : Int) = ((i : Nat) : Int) := congrArg Prod.snd run
      omega
    · rcases stop with ⟨free,result⟩ | ⟨g,keeps,also,result⟩
      · rw [result] at run
        injection run with run
        obtain ⟨left,_⟩ := Prod.mk.inj run
        rw [← left] at same
        have taken := congrFun same k
        rw [free] at taken
        simp [Stdio.setFlags,Stdio.setFd,Stdio.setSlot,Stdio.update] at taken
      · refine ⟨⟨c,⟨fs,listed.chain,member⟩,title⟩,k,g,tall,keeps,also,fun j low less empty => ?_⟩
        exact early j low less fun h absurd_ => by simp [empty] at absurd_
  · rcases openFile_cases fname fmode listed with
      ⟨missed,none_found⟩ | ⟨c,_,_,i,high,early,stop⟩
    · obtain ⟨⟨f,canOpen,named⟩,h,g,tall,holds,also,_⟩ := findable
      rcases none_found with unnamed | unstopped
      · exact absurd named (unnamed f ((canOpen_iff listed.chain).mp canOpen))
      · refine absurd (fun x found => ?_) (unstopped h tall)
        rw [holds] at found
        cases found
        exact also
    · rcases stop with ⟨free,_⟩ | ⟨f,holds,named,result⟩
      · exact absurd free (findable.first high early)
      · exact ⟨_,i,f,result,high,holds,named,rfl⟩

/-- What every operation keeps. The standard streams are never set. -/
structure Sane (s : Stdio Handler) : Prop where
  listed : ∃ fs, Listed s fs
  consistent : Consistent s
  standard : ∀ i : Slot, i < 3 → s.iob i = none

theorem vfsAdd_chain (chain : Chain s.next s.vfsHead fs) (fresh : f ∉ fs) :
    Chain (vfsAdd f s).next (vfsAdd f s).vfsHead (f::fs) := by
  refine ⟨rfl,?_⟩
  have head : (vfsAdd f s).next f = s.vfsHead := by simp [vfsAdd,Stdio.update,Stdio.next]
  rw [head]
  refine seg_congr chain fun g member => ?_
  have other : g ≠ f := fun same => fresh (same ▸ member)
  simp [vfsAdd,Stdio.update,Stdio.next,other]

theorem vfsAdd_sane (sane : Sane s) (distinct : ∀ g, CanOpen s g → s.name g ≠ s.name f) :
    Sane (vfsAdd f s) := by
  obtain ⟨⟨fs,listed⟩,consistent,standard⟩ := sane
  have fresh : f ∉ fs := fun member => distinct f ⟨fs,listed.chain,member⟩ rfl
  have names (g : Addr) : (vfsAdd f s).name g = s.name g := by
    by_cases same : g = f <;> simp [vfsAdd,Stdio.update,Stdio.name,same]
  refine ⟨⟨f::fs,vfsAdd_chain listed.chain fresh,?_⟩,⟨fun i g high holds => ?_,consistent.single⟩,standard⟩
  · rw [List.map_congr_left fun g _ => names g,List.map_cons,List.nodup_cons]
    refine ⟨fun member => ?_,listed.distinct⟩
    obtain ⟨g,inside,same⟩ := List.mem_map.mp member
    exact distinct g ⟨fs,listed.chain,inside⟩ same
  · have kept : ((vfsAdd f s).file g).fd = (s.file g).fd := by
      by_cases same : g = f <;> simp [vfsAdd,Stdio.update,same]
    exact kept.trans (consistent.fd i g high holds)

theorem iobAdd_sane (sane : Sane s) (closed : ∀ i, s.iob i ≠ some f) : Sane (iobAdd f s).1 := by
  obtain ⟨⟨fs,listed⟩,consistent,standard⟩ := sane
  rcases addScan_cases s f slots with full | ⟨i,member,_,result⟩
  · rw [iobAdd,full]
    exact ⟨⟨fs,listed⟩,consistent,standard⟩
  · have high := mem_slots.mp member
    rw [iobAdd,result]
    refine ⟨⟨fs,(setFd_same _ _ _).listed ⟨listed.chain,listed.distinct⟩⟩,
      consistent.take fun j _ => closed j,fun k low => ?_⟩
    have other : k ≠ i := fun same => absurd (same ▸ low) (Nat.not_lt.mpr high)
    simpa [Stdio.setFd,Stdio.setSlot,Stdio.update,other] using standard k low

theorem close_sane {result : Handler → Addr → Int} (sane : Sane s) (opened : s.iob i ≠ none) :
    Sane (close result i s).1 := by
  obtain ⟨⟨fs,listed⟩,consistent,standard⟩ := sane
  obtain ⟨f,holds⟩ := Option.ne_none_iff_exists'.mp opened
  have high : 3 ≤ i := Nat.not_lt.mp fun low => opened (standard i low)
  have closed : (close result i s).1 = (s.setFd f (-1)).setSlot i none := by
    simp only [close,holds]
  have kept {j : Slot} {g : Addr} (there : ((s.setFd f (-1)).setSlot i none).iob j = some g) :
      j ≠ i ∧ s.iob j = some g := by
    by_cases same : j = i
    · simp [Stdio.setFd,Stdio.setSlot,Stdio.update,same] at there
    · exact ⟨same,by simpa [Stdio.setFd,Stdio.setSlot,Stdio.update,same] using there⟩
  rw [closed]
  have names := (setFd_same s f (-1)).listed listed
  refine ⟨⟨fs,names.chain,names.distinct⟩,⟨?_,?_⟩,fun k low => ?_⟩
  · intro j g tall there
    obtain ⟨away,old⟩ := kept there
    have other : g ≠ f := by
      rintro rfl
      exact away (consistent.single j i g tall high old holds)
    simpa [Stdio.setFd,Stdio.setSlot,Stdio.update,other] using consistent.fd j g tall old
  · intro j k g tall top left right
    exact consistent.single j k g tall top (kept left).2 (kept right).2
  · have other : k ≠ i := fun same => absurd (same ▸ low) (Nat.not_lt.mpr high)
    simpa [Stdio.setFd,Stdio.setSlot,Stdio.update,other] using standard k low

theorem renew_sane (sane : Sane s) (g : File Handler) (closed : ∀ i, s.iob i ≠ some f)
    (unlisted : ¬CanOpen s f) : Sane (s.update f fun _ => g) := by
  obtain ⟨⟨fs,listed⟩,consistent,standard⟩ := sane
  have other {h : Addr} (member : h ∈ fs) : h ≠ f := by
    rintro rfl
    exact unlisted ⟨fs,listed.chain,member⟩
  refine ⟨⟨fs,listed_congr listed rfl ?_ ?_⟩,⟨fun i h high holds => ?_,consistent.single⟩,standard⟩
  · intro h member
    simp [Stdio.update,Stdio.next,other member]
  · intro h member
    simp [Stdio.update,Stdio.name,other member]
  · have away : h ≠ f := fun same => closed i (same ▸ holds)
    simpa [Stdio.update,away] using consistent.fd i h high holds

/-- Every open of an open name finds it. -/
def Plain (s : Stdio Handler) (fname : List Char) : Prop := IsOpen s fname → Findable s fname

theorem openFile_sane (sane : Sane s) (plain : Plain s fname) {rc : Int}
    (run : openFile fname fmode s = some (t,rc)) : Sane t := by
  obtain ⟨⟨fs,listed⟩,consistent,standard⟩ := sane
  obtain ⟨result,names⟩ := openFile_consistent listed consistent plain run
  refine ⟨⟨fs,names⟩,result,fun k low => ?_⟩
  rcases openFile_cases fname fmode listed with
    ⟨missed,_⟩ | ⟨c,_,_,i,high,_,stop⟩
  · rw [missed] at run
    cases run
    exact standard k low
  · rcases stop with ⟨_,result⟩ | ⟨f,_,_,result⟩
    · rw [result] at run
      cases run
      have other : k ≠ i := fun same => absurd (same ▸ low) (Nat.not_lt.mpr high)
      simpa [Stdio.setFlags,Stdio.setFd,Stdio.setSlot,Stdio.update,other] using standard k low
    · rw [result] at run
      cases run
      exact standard k low

theorem reachable_sane {result : Handler → Addr → Int} (reach : Reachable result Plain s) :
    Sane s := by
  induction reach with
  | init file => exact ⟨⟨[],rfl,List.nodup_nil⟩,⟨by simp [vfsInit],by simp [vfsInit]⟩,by simp [vfsInit]⟩
  | step _ step sane =>
    cases step with
    | vfsAdd distinct => exact vfsAdd_sane sane distinct
    | openFile plain run => exact openFile_sane sane plain run
    | iobAdd closed => exact iobAdd_sane sane closed
    | close opened => exact close_sane sane opened
    | renew g closed unlisted => exact renew_sane sane g closed unlisted

/-- In a run in which nothing hides an open file from `open`, the table is consistent,
and `open` of an open name returns its descriptor exactly if nothing hides it now. -/
theorem table_consistent {result : Handler → Addr → Int} (reach : Reachable result Plain s) :
    Consistent s ∧ ∀ fname, IsOpen s fname → (Existing s fname ↔ Findable s fname) := by
  obtain ⟨⟨fs,listed⟩,consistent,_⟩ := reachable_sane reach
  exact ⟨consistent,fun _ _ => existing_iff listed⟩

section Script

variable {result : Handler → Addr → Int} {plain : Stdio Handler → List Char → Prop}

def opening (fname : List Char) (s : Stdio Handler) : Stdio Handler :=
  ((openFile fname 3 s).map Prod.fst).getD s

theorem opening_reachable (reach : Reachable result plain s) (allowed : plain s fname) :
    Reachable result plain (opening fname s) := by
  unfold opening
  cases run : openFile fname 3 s with
  | none => exact reach
  | some found => exact reach.step (.openFile allowed run)

theorem closed_plain (fname : List Char)
    (closed : ∀ i ∈ slots, (s.iob i).all (fun f => decide (s.name f ≠ fname)) = true) :
    Plain s fname := by
  rintro ⟨i,f,high,holds,named⟩
  have other := closed i (mem_slots.mpr high)
  simp [holds,named] at other

end Script

/-- The two files A and B can be opened. -/
def twoFiles : Stdio Unit :=
  vfsAdd 0x200 (vfsAdd 0x100 (vfsInit fun f => ⟨none,if f = 0x100 then ['A'] else ['B'],0,-1,none⟩))

theorem twoFiles_reachable {plain : Stdio Unit → List Char → Prop} :
    Reachable (fun _ _ => 0) plain twoFiles := by
  refine ((Reachable.init _).step (.vfsAdd fun g canOpen => ?_)).step (.vfsAdd fun g canOpen => ?_)
  · obtain ⟨gs,chain,member⟩ := canOpen
    rw [chain_unique chain (show Chain _ _ [] from rfl)] at member
    exact absurd member List.not_mem_nil
  · obtain ⟨gs,chain,member⟩ := canOpen
    rw [chain_unique chain (show Chain _ _ [0x100] from ⟨rfl,rfl⟩),List.mem_singleton] at member
    subst member
    decide

/-- A and B are open, and A is closed. -/
def holed : Stdio Unit :=
  (close (fun _ _ => 0) 3 (opening ['B'] (opening ['A'] twoFiles))).1

theorem holed_reachable : Reachable (fun _ _ => 0) Plain holed := by
  have first : Reachable (fun _ _ => 0) Plain (opening ['A'] twoFiles) :=
    opening_reachable twoFiles_reachable (closed_plain ['A'] (by decide +kernel))
  have second := opening_reachable first (closed_plain ['B'] (by decide +kernel))
  exact second.step (.close (by decide +kernel))

theorem table_consistent_reopened : Consistent (opening ['A'] holed) ∧
    (Existing (opening ['A'] holed) ['B'] ↔ Findable (opening ['A'] holed) ['B']) := by
  have reach := opening_reachable holed_reachable (closed_plain ['A'] (by decide +kernel))
  obtain ⟨consistent,finds⟩ := table_consistent reach
  exact ⟨consistent,finds ['B'] ⟨4,0x200,by decide,by decide +kernel,by decide +kernel⟩⟩

/-- With the slot of A free, `open` of B gives B a second slot. -/
theorem table_doubles : ∃ s : Stdio Unit, Reachable (fun _ _ => 0) (fun _ _ => True) s ∧
    ¬Consistent s := by
  have opened : Reachable (fun _ _ => 0) (fun _ _ => True) (opening ['B'] (opening ['A'] twoFiles)) :=
    opening_reachable (opening_reachable twoFiles_reachable trivial) trivial
  refine ⟨opening ['B'] holed,opening_reachable (opened.step (.close (by decide +kernel))) trivial,?_⟩
  intro consistent
  have same := consistent.single 3 4 0x200 (by decide) (by decide) (by decide +kernel) (by decide +kernel)
  exact absurd same (by decide)

end BermudaOS.Fs
