import BermudaOS.Dev.Sockets
import BermudaOS.Lib.Lookups

/-! The look-up of open files by their names, in `open` and in `usart_open`. The name of
a `FILE` from the heap is what the block held before, until a socket sets it: that of an
I2C client does, and that of a SPI client does not. -/
namespace BermudaOS.Dev.FileNames
open Sys.VirtTimer Lib.Chains Lib.Lookups Fs Sockets

/-- The open files. `named` is a record for the reader of the `FILE`s whose name has been
set since they got their memory. -/
structure Table where
  files : Files
  named : Addr → Bool

namespace Table

def stdio (t : Table) : Stdio Handler := t.files.stdio

def setStdio (t : Table) (s : Stdio Handler) : Table := {t with files := {t.files with stdio := s}}

/-- The heap is going to hand out a block, in which there is `g`. -/
def offer (t : Table) (a : Addr) (g : File Handler) : Table :=
  ⟨{t.files with heapNext := some a,stdio := t.stdio.update a fun _ => g},Function.update t.named a false⟩

def iobAdd (t : Table) (stream : Addr) : Table := {t with files := (Sockets.iobAdd stream t.files).1}

def spidevSocket (t : Table) (client : Addr) (flags : Nat) : Table :=
  {t with files := (Sockets.spidevSocket client flags t.files).1}

/-- `i2cdev_socket`, which sets the name of the `FILE` that it opens. -/
def i2cdevSocket (t : Table) (client : Addr) (flags : Nat) : Table :=
  ⟨(i2cdevAttach client flags t.files).1,
    if (i2cdevAttach client flags t.files).2 < 0 then t.named
    else t.files.heapNext.elim t.named fun socket => Function.update t.named socket true⟩

def close (t : Table) (fd : Slot) : Table :=
  match t.stdio.iob fd with
  | none => t
  | some stream =>
    let files := match (t.stdio.file stream).close with
      | none => t.files
      | some (.i2cdev_close client) => i2cdevRelease stream client t.files
      | some (.spidev_close client) => (spidevClose stream client t.files).1
    {t with files := drop fd (touch fd stream files)}

end Table

/-- The start of the system, where the streams of `FDEV_SETUP_STREAM` have a name and no
function that closes them. -/
structure Initial (fixed : Addr → Prop) (t : Table) : Prop where
  iob : ∀ i, t.stdio.iob i = none
  head : t.stdio.vfsHead = none
  heap : (∀ f, t.files.allocated f = false) ∧ t.files.heapNext = none
  plain : ∀ f, fixed f → t.named f = true ∧ (t.stdio.file f).close = none

/-- The operations on the table. What `iob_add` and `vfs_add` get, and the standard streams,
are streams of `FDEV_SETUP_STREAM`. -/
inductive Step (fixed : Addr → Prop) : Table → Table → Prop
  | offer {t : Table} {a : Addr} (g : File Handler) (fresh : ¬fixed a)
      (unused : t.files.allocated a = false) : Step fixed t (t.offer a g)
  | standard {t : Table} {f : Addr} {i : Slot} (known : fixed f) (low : i < 3) :
      Step fixed t (t.setStdio (t.stdio.setSlot i (some f)))
  | vfsAdd {t : Table} {f : Addr} (known : fixed f) (unlisted : ¬CanOpen t.stdio f) :
      Step fixed t (t.setStdio (vfsAdd f t.stdio))
  | iobAdd {t : Table} {f : Addr} (known : fixed f) : Step fixed t (t.iobAdd f)
  | openFile {t : Table} {s : Stdio Handler} {fname : List Char} {fmode : Nat} {rc : Int}
      (run : openFile fname fmode t.stdio = some (s,rc)) : Step fixed t (t.setStdio s)
  | i2cdevSocket {t : Table} (client : Addr) (flags : Nat) : Step fixed t (t.i2cdevSocket client flags)
  | spidevSocket {t : Table} (client : Addr) (flags : Nat) : Step fixed t (t.spidevSocket client flags)
  | close {t : Table} (fd : Slot) : Step fixed t (t.close fd)

inductive Reachable (fixed : Addr → Prop) : Table → Prop
  | init {t : Table} (initial : Initial fixed t) : Reachable fixed t
  | step {t u : Table} (reach : Reachable fixed t) (step : Step fixed t u) : Reachable fixed u

variable {fixed : Addr → Prop} {t u : Table} {s : Stdio Handler} {a f : Addr} {i j fd : Slot}

def Spi (s : Stdio Handler) (f : Addr) : Prop := ∃ client, (s.file f).close = some (.spidev_close client)

theorem spi_congr {r : Stdio Handler} (closes : (r.file f).close = (s.file f).close) : Spi r f ↔ Spi s f := by
  unfold Spi
  rw [closes]

def Fixed (fixed : Addr → Prop) (s : Stdio Handler) : Prop :=
  ∃ fs, Chain s.next s.vfsHead fs ∧ ∀ f ∈ fs, fixed f

/-- Which of the open files have a name. -/
structure Sound (fixed : Addr → Prop) (t : Table) : Prop where
  listed : Fixed fixed t.stdio
  held : ∀ i f, t.stdio.iob i = some f → fixed f ∨ t.files.allocated f = true
  once : ∀ i j f, ¬fixed f → t.stdio.iob i = some f → t.stdio.iob j = some f → i = j
  plain : ∀ f, fixed f → t.named f = true ∧ (t.stdio.file f).close = none
  offered : ∀ a, t.files.heapNext = some a →
    ¬fixed a ∧ t.files.allocated a = false ∧ t.named a = false
  kind : ∀ i f, t.stdio.iob i = some f → (t.named f = true ↔ ¬Spi t.stdio f)

theorem Sound.fixed_kind (sound : Sound fixed t) (known : fixed f) : t.named f = true ↔ ¬Spi t.stdio f := by
  obtain ⟨named,closes⟩ := sound.plain f known
  refine iff_of_true named ?_
  rintro ⟨client,spi⟩
  cases closes.symm.trans spi

/-- What no more than puts a fixed stream into a slot, or empties a slot. -/
theorem Sound.keep (sound : Sound fixed t)
    (iob : ∀ i f, u.stdio.iob i = some f → t.stdio.iob i = some f ∨ fixed f)
    (allocated : u.files.allocated = t.files.allocated)
    (offered : ∀ a, u.files.heapNext = some a → t.files.heapNext = some a) (named : u.named = t.named)
    (closes : ∀ f, (u.stdio.file f).close = (t.stdio.file f).close)
    (listed : Fixed fixed u.stdio) : Sound fixed u := by
  refine ⟨listed,fun i f opened => ?_,fun i j f loose left right => ?_,fun f known => ?_,
    fun a next => ?_,fun i f opened => ?_⟩
  · rw [allocated]
    exact (iob i f opened).elim (sound.held i f) .inl
  · exact sound.once i j f loose ((iob i f left).resolve_right loose) ((iob j f right).resolve_right loose)
  · rw [named,closes]
    exact sound.plain f known
  · rw [allocated,named]
    exact sound.offered a (offered a next)
  · rw [named,spi_congr (closes f)]
    exact (iob i f opened).elim (sound.kind i f) sound.fixed_kind

theorem update_close {g : File Handler → File Handler} (same : ∀ x, (g x).close = x.close) (f : Addr) :
    ((s.update a g).file f).close = (s.file f).close := by
  by_cases own : f = a
  · subst own
    simp [Stdio.update,same]
  · simp [Stdio.update,own]

theorem setFd_close (s : Stdio Handler) (a : Addr) (n : Int) (f : Addr) :
    ((s.setFd a n).file f).close = (s.file f).close :=
  update_close (g := fun x => {x with fd := n}) (fun _ => rfl) f

theorem setFlags_close (s : Stdio Handler) (a : Addr) (flags : Nat) (f : Addr) :
    ((s.setFlags a flags).file f).close = (s.file f).close :=
  update_close (g := fun x => {x with flags := flags}) (fun _ => rfl) f

theorem vfsAdd_close (s : Stdio Handler) (a f : Addr) : ((vfsAdd a s).file f).close = (s.file f).close :=
  update_close (g := fun x => {x with next := s.vfsHead}) (fun _ => rfl) f

theorem initial_sound (initial : Initial fixed t) : Sound fixed t := by
  obtain ⟨iob,head,⟨unused,idle⟩,plain⟩ := initial
  refine ⟨⟨[],head,by simp⟩,fun i f opened => ?_,fun i j f _ opened _ => ?_,plain,fun a next => ?_,
    fun i f opened => ?_⟩
  · cases (iob i).symm.trans opened
  · cases (iob i).symm.trans opened
  · cases idle.symm.trans next
  · cases (iob i).symm.trans opened

theorem offer_sound (sound : Sound fixed t) (g : File Handler) (fresh : ¬fixed a)
    (unused : t.files.allocated a = false) : Sound fixed (t.offer a g) := by
  -- no slot has a block that is not allocated
  have away {i : Slot} {f : Addr} (opened : t.stdio.iob i = some f) : f ≠ a := by
    rintro rfl
    rcases sound.held i f opened with known | used
    · exact fresh known
    · cases unused.symm.trans used
  have other {f : Addr} (foreign : f ≠ a) :
      (t.offer a g).stdio.file f = t.stdio.file f ∧ (t.offer a g).named f = t.named f :=
    ⟨Function.update_of_ne foreign _ _,Function.update_of_ne foreign _ _⟩
  have known_away {f : Addr} (known : fixed f) : f ≠ a := fun same => fresh (same ▸ known)
  obtain ⟨fs,chain,known⟩ := sound.listed
  refine ⟨⟨fs,seg_congr chain fun f inside => ?_,known⟩,sound.held,sound.once,fun f known => ?_,
    fun b next => ?_,fun i f opened => ?_⟩
  · exact congrArg File.next (other (known_away (known f inside))).1
  · obtain ⟨file,named⟩ := other (known_away known)
    rw [file,named]
    exact sound.plain f known
  · obtain rfl := Option.some.inj next
    exact ⟨fresh,unused,Function.update_self _ _ _⟩
  · obtain ⟨file,named⟩ := other (away opened)
    rw [named,spi_congr (congrArg File.close file)]
    exact sound.kind i f opened

/-- A socket gets a slot, and closes as its client does. -/
theorem Sound.socket (sound : Sound fixed t) (next : t.files.heapNext = some a)
    (iob : u.stdio.iob = Function.update t.stdio.iob j (some a)) (head : u.stdio.vfsHead = t.stdio.vfsHead)
    (allocated : u.files.allocated = Function.update t.files.allocated a true)
    (taken : u.files.heapNext = none) (others : ∀ f, f ≠ a → u.named f = t.named f ∧
      u.stdio.file f = t.stdio.file f) (kind : u.named a = true ↔ ¬Spi u.stdio a) : Sound fixed u := by
  obtain ⟨fresh,unused,_⟩ := sound.offered a next
  have apart {i : Slot} : t.stdio.iob i ≠ some a := by
    intro opened
    rcases sound.held i a opened with known | used
    · exact fresh known
    · cases unused.symm.trans used
  have away {f : Addr} (known : fixed f) : f ≠ a := fun same => fresh (same ▸ known)
  have slot {i : Slot} {f : Addr} (opened : u.stdio.iob i = some f) :
      i = j ∧ f = a ∨ f ≠ a ∧ t.stdio.iob i = some f := by
    rw [iob] at opened
    by_cases here : i = j
    · subst here
      rw [Function.update_self] at opened
      exact .inl ⟨rfl,(Option.some.inj opened).symm⟩
    · rw [Function.update_of_ne here] at opened
      exact .inr ⟨fun same => apart (same ▸ opened),opened⟩
  obtain ⟨fs,chain,known⟩ := sound.listed
  refine ⟨⟨fs,?_,known⟩,fun i f opened => ?_,fun i k f loose left right => ?_,fun f known => ?_,
    fun b more => ?_,fun i f opened => ?_⟩
  · rw [head]
    exact seg_congr chain fun f inside => congrArg File.next (others f (away (known f inside))).2
  · rw [allocated]
    rcases slot opened with ⟨_,rfl⟩ | ⟨foreign,opened⟩
    · exact .inr (Function.update_self _ _ _)
    · rw [Function.update_of_ne foreign]
      exact sound.held i f opened
  · rcases slot left with ⟨rfl,rfl⟩ | ⟨foreign,left⟩
    · rcases slot right with ⟨rfl,_⟩ | ⟨foreign,_⟩
      · rfl
      · exact absurd rfl foreign
    · rcases slot right with ⟨_,same⟩ | ⟨_,right⟩
      · exact absurd same foreign
      · exact sound.once i k f loose left right
  · obtain ⟨named,file⟩ := others f (away known)
    rw [named,file]
    exact sound.plain f known
  · cases taken.symm.trans more
  · rcases slot opened with ⟨_,rfl⟩ | ⟨foreign,opened⟩
    · exact kind
    · obtain ⟨named,file⟩ := others f foreign
      rw [named,spi_congr (congrArg File.close file)]
      exact sound.kind i f opened

/-- A socket is freed, and leaves its slot. -/
theorem Sound.freed (sound : Sound fixed t) (opened : t.stdio.iob fd = some f) (loose : ¬fixed f)
    (iob : u.stdio.iob = Function.update t.stdio.iob fd none)
    (allocated : u.files.allocated = Function.update t.files.allocated f false)
    (offered : u.files.heapNext = t.files.heapNext) (named : u.named = t.named)
    (closes : ∀ g, (u.stdio.file g).close = (t.stdio.file g).close)
    (listed : Fixed fixed u.stdio) : Sound fixed u := by
  have slot {i : Slot} {g : Addr} (open_ : u.stdio.iob i = some g) : i ≠ fd ∧ t.stdio.iob i = some g := by
    rw [iob] at open_
    by_cases here : i = fd
    · subst here
      simp at open_
    · exact ⟨here,by rwa [Function.update_of_ne here] at open_⟩
  refine ⟨listed,fun i g open_ => ?_,fun i j g away left right => ?_,fun g known => ?_,
    fun a next => ?_,fun i g open_ => ?_⟩
  · obtain ⟨other,open_⟩ := slot open_
    have foreign : g ≠ f := by
      rintro rfl
      exact other (sound.once i fd g loose open_ opened)
    rw [allocated,Function.update_of_ne foreign]
    exact sound.held i g open_
  · exact sound.once i j g away (slot left).2 (slot right).2
  · rw [named,closes]
    exact sound.plain g known
  · obtain ⟨fresh,unused,unnamed⟩ := sound.offered a (offered ▸ next)
    refine ⟨fresh,?_,named ▸ unnamed⟩
    rw [allocated]
    by_cases own : a = f
    · subst own
      exact Function.update_self _ _ _
    · rwa [Function.update_of_ne own]
  · rw [named,spi_congr (closes g)]
    exact sound.kind i g (slot open_).2

theorem Fixed.same {r : Stdio Handler} (listed : Fixed fixed s) (same : SameNames s r) : Fixed fixed r := by
  obtain ⟨fs,chain,known⟩ := listed
  refine ⟨fs,?_,known⟩
  rw [same.1]
  exact seg_congr chain fun f _ => (same.2 f).1

theorem setSlot_cases {g : Addr} (opened : (s.setSlot i (some f)).iob j = some g) :
    s.iob j = some g ∨ f = g := by
  by_cases here : j = i
  · exact .inr (by simpa [Stdio.setSlot,here] using opened)
  · exact .inl (by simpa [Stdio.setSlot,here] using opened)

theorem standard_sound (sound : Sound fixed t) (known : fixed f) :
    Sound fixed (t.setStdio (t.stdio.setSlot i (some f))) := by
  refine sound.keep (fun j g opened => ?_) rfl (fun _ => id) rfl (fun _ => rfl) sound.listed
  rcases setSlot_cases (s := t.stdio) opened with old | rfl
  · exact .inl old
  · exact .inr known

theorem vfsAdd_sound (sound : Sound fixed t) (known : fixed f) (unlisted : ¬CanOpen t.stdio f) :
    Sound fixed (t.setStdio (vfsAdd f t.stdio)) := by
  refine sound.keep (fun _ _ => .inl) rfl (fun _ => id) rfl (vfsAdd_close _ _) ?_
  obtain ⟨fs,chain,all⟩ := sound.listed
  have fresh : f ∉ fs := fun member => unlisted ⟨fs,chain,member⟩
  exact ⟨f::fs,vfsAdd_chain chain fresh,List.forall_mem_cons.mpr ⟨known,all⟩⟩

theorem iobAdd_sound (sound : Sound fixed t) (known : fixed f) : Sound fixed (t.iobAdd f) := by
  unfold Table.iobAdd
  rcases iobAdd_cases f t.files with full | ⟨j,_,result⟩
  · rw [full]
    exact sound
  · rw [result]
    refine sound.keep (fun i g opened => ?_) rfl (fun _ => id) rfl (setFd_close _ _ _) ?_
    · rcases setSlot_cases (s := t.stdio) opened with old | rfl
      · exact .inl old
      · exact .inr known
    · exact Fixed.same (s := t.stdio.setSlot j (some f)) sound.listed (setFd_same _ _ _)

/-- `open` changes nothing, takes a free slot for a file of the list, or sets flags. -/
theorem openWalk_effect {fname : List Char} {fmode fuel : Nat} {p : Option Addr} {fs : List Addr}
    {r : Stdio Handler} {rc : Int} (chain : Chain s.next p fs)
    (run : openWalk fname fmode s fuel p = some (r,rc)) :
    r = s ∨ ∃ c ∈ fs, ∃ i, openScan fname fmode c s slots = some (r,i) := by
  induction fs generalizing p fuel with
  | nil =>
    obtain rfl : p = none := chain
    have missed : some (s,-1) = some (r,rc) := by
      rw [← run]
      cases fuel <;> rfl
    exact .inl (Prod.mk.inj (Option.some.inj missed)).1.symm
  | cons c fs ih =>
    obtain ⟨rfl,rest⟩ := chain
    cases fuel with
    | zero => cases run
    | succ fuel =>
      have onward (later : openWalk fname fmode s fuel (s.next c) = some (r,rc)) :
          r = s ∨ ∃ b ∈ c::fs, ∃ i, openScan fname fmode b s slots = some (r,i) := by
        rcases ih rest later with same | ⟨b,inside,i,found⟩
        · exact .inl same
        · exact .inr ⟨b,List.mem_cons_of_mem _ inside,i,found⟩
      rw [openWalk] at run
      split at run
      · cases scan : openScan fname fmode c s slots with
        | none =>
          rw [scan] at run
          exact onward run
        | some found =>
          obtain ⟨q,i⟩ := found
          rw [scan] at run
          obtain rfl := (Prod.mk.inj (Option.some.inj run)).1
          exact .inr ⟨c,List.mem_cons_self,i,scan⟩
      · exact onward run

theorem openFile_sound {r : Stdio Handler} {fname : List Char} {fmode : Nat} {rc : Int}
    (sound : Sound fixed t) (run : openFile fname fmode t.stdio = some (r,rc)) :
    Sound fixed (t.setStdio r) := by
  obtain ⟨fs,chain,all⟩ := sound.listed
  rcases openWalk_effect chain run with rfl | ⟨c,inside,i,scan⟩
  · exact sound
  have known := all c inside
  rcases openScan_cases t.stdio fname fmode c slots with ⟨_,missed⟩ | ⟨_,j,_,_,_,stop⟩
  · cases missed.symm.trans scan
  rcases stop with ⟨_,taken⟩ | ⟨f,_,_,found⟩
  · obtain rfl := (Prod.mk.inj (Option.some.inj (taken.symm.trans scan))).1
    refine sound.keep (fun k g opened => ?_) rfl (fun _ => id) rfl (fun g => ?_) ?_
    · rcases setSlot_cases (s := t.stdio) opened with old | rfl
      · exact .inl old
      · exact .inr known
    · exact (setFlags_close _ c fmode g).trans (setFd_close _ c j g)
    · have first := Fixed.same (s := t.stdio.setSlot j (some c)) sound.listed (setFd_same _ c j)
      exact first.same (setFlags_same _ _ _)
  · obtain rfl := (Prod.mk.inj (Option.some.inj (found.symm.trans scan))).1
    refine sound.keep (fun _ _ => .inl) rfl (fun _ => id) rfl (setFlags_close _ f fmode) ?_
    exact sound.listed.same (setFlags_same _ _ _)

/-- The files with the offered block in use. -/
def handed (d : Files) (a : Addr) : Files :=
  {d with allocated := Function.update d.allocated a true,heapNext := none}

theorem heapAlloc_none {d : Files} (next : d.heapNext = none) : bermudaHeapAlloc d = (d,none) := by
  unfold bermudaHeapAlloc
  rw [next]

theorem heapAlloc_some {d : Files} (next : d.heapNext = some a) (unused : d.allocated a = false) :
    bermudaHeapAlloc d = (handed d a,some a) := by
  unfold bermudaHeapAlloc
  rw [next]
  dsimp only
  rw [unused]
  exact if_neg (by simp)

theorem returned_sound (sound : Sound fixed t) (next : t.files.heapNext = some a) :
    Sound fixed ⟨bermudaHeapFree a (handed t.files a),t.named⟩ := by
  obtain ⟨_,unused,_⟩ := sound.offered a next
  refine sound.keep (fun _ _ => .inl) ?_ (fun _ more => nomatch more) rfl (fun _ => rfl) sound.listed
  change Function.update (Function.update t.files.allocated a true) a false = t.files.allocated
  rw [Function.update_idem,← unused]
  exact Function.update_eq_self a t.files.allocated

theorem spidevSocket_sound (sound : Sound fixed t) (client : Addr) (flags : Nat) :
    Sound fixed (t.spidevSocket client flags) := by
  unfold Table.spidevSocket Sockets.spidevSocket
  cases next : t.files.heapNext with
  | none =>
    rw [heapAlloc_none next]
    exact sound
  | some a =>
    obtain ⟨_,unused,unnamed⟩ := sound.offered a next
    rw [heapAlloc_some next unused]
    dsimp only
    rcases iobAdd_cases a (handed t.files a) with full | ⟨j,_,found⟩
    · rw [full]
      exact returned_sound sound next
    · rw [found]
      dsimp only
      rw [if_neg (by omega)]
      refine sound.socket (a := a) (j := j) next rfl rfl rfl rfl (fun f other => ⟨rfl,?_⟩) ?_
      · simp [Table.stdio,handed,Stdio.update,Stdio.setFd,Stdio.setSlot,other]
      · refine iff_of_false (by simp [unnamed]) (not_not_intro ⟨client,?_⟩)
        simp [Table.stdio,Stdio.update]

theorem i2cdevAttach_cases {d : Files} (next : d.heapNext = some a) (unused : d.allocated a = false)
    (client : Addr) (flags : Nat) :
    i2cdevAttach client flags d = (bermudaHeapFree a (handed d a),-1) ∨
    ∃ (j : Slot) (e : Files), i2cdevAttach client flags d = (e,(j : Int)) ∧
      e.stdio.iob = Function.update d.stdio.iob j (some a) ∧ e.stdio.vfsHead = d.stdio.vfsHead ∧
      e.allocated = Function.update d.allocated a true ∧ e.heapNext = none ∧
      (∀ f, f ≠ a → e.stdio.file f = d.stdio.file f) ∧
      (e.stdio.file a).close = some (.i2cdev_close client) := by
  unfold i2cdevAttach
  rw [heapAlloc_some next unused]
  dsimp only
  rcases iobAdd_cases a (handed d a) with full | ⟨j,_,found⟩
  · rw [full]
    exact .inl rfl
  · rw [found]
    dsimp only
    rw [if_neg (by omega)]
    refine .inr ⟨j,_,rfl,rfl,rfl,rfl,rfl,fun f other => ?_,?_⟩
    · simp [handed,Stdio.update,Stdio.setFd,Stdio.setSlot,other]
    · simp [Stdio.update]

theorem i2cdevSocket_sound (sound : Sound fixed t) (client : Addr) (flags : Nat) :
    Sound fixed (t.i2cdevSocket client flags) := by
  unfold Table.i2cdevSocket
  cases next : t.files.heapNext with
  | none =>
    have failed : i2cdevAttach client flags t.files = (t.files,-1) := by
      unfold i2cdevAttach
      rw [heapAlloc_none next]
    rw [failed]
    exact sound
  | some a =>
    obtain ⟨_,unused,_⟩ := sound.offered a next
    rcases i2cdevAttach_cases next unused client flags with
      full | ⟨j,e,opened,iob,head,allocated,taken,others,closes⟩
    · rw [full]
      exact returned_sound sound next
    · rw [opened,if_neg (by dsimp only; omega)]
      refine sound.socket next iob head allocated taken (fun f other => ⟨?_,others f other⟩) ?_
      · exact Function.update_of_ne other _ _
      · refine iff_of_true (Function.update_self _ _ _) ?_
        rintro ⟨c,spi⟩
        cases closes.symm.trans spi

/-- Only sockets have a function that closes them. -/
theorem Sound.loose {handler : Handler} (sound : Sound fixed t)
    (closes : (t.stdio.file f).close = some handler) : ¬fixed f := by
  intro known
  cases closes.symm.trans (sound.plain f known).2

theorem setSlot_none {g : Addr} (opened : (s.setSlot i none).iob j = some g) : s.iob j = some g := by
  by_cases here : j = i
  · simp [Stdio.setSlot,here] at opened
  · simpa [Stdio.setSlot,here] using opened

theorem close_sound (sound : Sound fixed t) (fd : Slot) : Sound fixed (t.close fd) := by
  have listed (f : Addr) : Fixed fixed (t.stdio.setFd f (-1)) := sound.listed.same (setFd_same _ _ _)
  unfold Table.close
  cases opened : t.stdio.iob fd with
  | none => exact sound
  | some stream =>
    dsimp only
    cases closes : (t.stdio.file stream).close with
    | none =>
      refine sound.keep (fun i f still => .inl ?_) rfl (fun _ => id) rfl (setFd_close _ stream (-1)) (listed _)
      exact setSlot_none (s := t.stdio) still
    | some handler =>
      have loose := sound.loose closes
      cases handler with
      | i2cdev_close client =>
        exact sound.freed opened loose rfl rfl rfl rfl (setFd_close _ stream (-1)) (listed _)
      | spidev_close client =>
        exact sound.freed opened loose rfl rfl rfl rfl (setFd_close _ stream (-1)) (listed _)

theorem step_sound (sound : Sound fixed t) (step : Step fixed t u) : Sound fixed u := by
  cases step with
  | offer g fresh unused => exact offer_sound sound g fresh unused
  | standard known _ => exact standard_sound sound known
  | vfsAdd known unlisted => exact vfsAdd_sound sound known unlisted
  | iobAdd known => exact iobAdd_sound sound known
  | openFile run => exact openFile_sound sound run
  | i2cdevSocket client flags => exact i2cdevSocket_sound sound client flags
  | spidevSocket client flags => exact spidevSocket_sound sound client flags
  | close fd => exact close_sound sound fd

theorem reachable_sound (reach : Reachable fixed t) : Sound fixed t := by
  induction reach with
  | init initial => exact initial_sound initial
  | step _ step sound => exact step_sound sound step

section Reads

variable (fname : List Char)

/-- The loop of `usart_open`, with the entries whose name it reads. At the null pointer it
reads the name `null`. -/
def usartScan (null : List Char) (s : Stdio Handler) : List Slot → Int × List (Option Addr)
  | [] => (-1,[])
  | i::rest =>
    if (s.iob i).elim null s.name = fname then (i,[s.iob i])
    else ((usartScan null s rest).1,s.iob i::(usartScan null s rest).2)

def usartOpen (null : List Char) (s : Stdio Handler) : Int × List (Option Addr) :=
  usartScan fname null s slots

/-- The inner loop of `open`, with the entries whose name it reads. -/
def readScan (fmode : Nat) (c : Addr) (s : Stdio Handler) :
    List Slot → Option (Stdio Handler × Slot) × List (Option Addr)
  | [] => (none,[])
  | i::rest =>
    match s.iob i with
    | none => (some ((mode i fmode ((s.setSlot i (some c)).setFd c i)).1,i),[])
    | some f =>
      if s.name f = fname then (some ((mode i fmode s).1,i),[some f])
      else ((readScan fmode c s rest).1,some f::(readScan fmode c s rest).2)

/-- The outer loop of `open`, with the entries whose name it reads. -/
def readWalk (fmode : Nat) (s : Stdio Handler) :
    Nat → Option Addr → Option (Stdio Handler × Int) × List (Option Addr)
  | _,none => (some (s,-1),[])
  | 0,some _ => (none,[])
  | fuel+1,some c =>
    if s.name c = fname then
      match readScan fname fmode c s slots with
      | (some (t,i),reads) => (some (t,i),some c::reads)
      | (none,reads) => ((readWalk fmode s fuel (s.next c)).1,
          some c::(reads ++ (readWalk fmode s fuel (s.next c)).2))
    else ((readWalk fmode s fuel (s.next c)).1,some c::(readWalk fmode s fuel (s.next c)).2)

def readOpen (fmode : Nat) (s : Stdio Handler) : Option (Stdio Handler × Int) × List (Option Addr) :=
  readWalk fname fmode s addrLimit s.vfsHead

end Reads

variable {fname null : List Char} {fmode : Nat} {c : Addr} {is : List Slot}

theorem readScan_runs : (readScan fname fmode c s is).1 = openScan fname fmode c s is := by
  induction is with
  | nil => rfl
  | cons i rest ih =>
    unfold readScan openScan
    cases s.iob i with
    | none => rfl
    | some f =>
      dsimp only
      split
      · rfl
      · exact ih

theorem readWalk_runs {fuel : Nat} {p : Option Addr} :
    (readWalk fname fmode s fuel p).1 = openWalk fname fmode s fuel p := by
  induction fuel generalizing p with
  | zero => cases p <;> rfl
  | succ fuel ih =>
    cases p with
    | none => rfl
    | some c =>
      unfold readWalk openWalk
      rw [← readScan_runs]
      split
      · rcases readScan fname fmode c s slots with ⟨_ | ⟨r,i⟩,reads⟩
        · exact ih
        · rfl
      · exact ih

theorem readOpen_runs : (readOpen fname fmode s).1 = openFile fname fmode s := readWalk_runs

/-- The entry is a `FILE` whose name has been set. -/
def Valid (t : Table) (entry : Option Addr) : Prop := ∃ f, entry = some f ∧ t.named f = true

theorem valid_some : Valid t (some f) ↔ t.named f = true := by
  simp [Valid]

/-- The name of an open file, where it has one. -/
def named (t : Table) (fname : List Char) (f : Addr) : Option Bool :=
  if t.named f then some (decide (t.stdio.name f = fname)) else none

/-- The comparisons that `usart_open` makes. -/
def usartTest (t : Table) (fname : List Char) (i : Slot) : Option Bool :=
  (t.stdio.iob i).elim none (named t fname)

/-- The comparisons that `open` makes, where a free slot is taken. -/
def openTest (t : Table) (fname : List Char) (i : Slot) : Option Bool :=
  (t.stdio.iob i).elim (some true) (named t fname)

theorem occupied_valid {test : Slot → Option Bool} {reads entries : List (Option Addr)}
    (tests : test i = named t fname f)
    (entry : entries = if t.stdio.name f = fname then [some f] else some f::reads)
    (later : (∀ e ∈ reads, Valid t e) ↔ search test is ≠ none) :
    (∀ e ∈ entries, Valid t e) ↔ search test (i::is) ≠ none := by
  rw [entry,search,tests,named]
  by_cases set : t.named f = true
  · by_cases same : t.stdio.name f = fname
    · simp [set,same,valid_some]
    · rw [if_neg same,if_pos set,List.forall_mem_cons,valid_some,and_iff_right set,later]
      simp [same]
  · by_cases same : t.stdio.name f = fname
    · simp [set,same,valid_some]
    · simp [set,same,valid_some]

theorem usartScan_valid :
    (∀ e ∈ (usartScan fname null t.stdio is).2, Valid t e) ↔ search (usartTest t fname) is ≠ none := by
  induction is with
  | nil => simp [usartScan,search]
  | cons i rest ih =>
    unfold usartScan
    cases slot : t.stdio.iob i with
    | none =>
      have bad : ¬Valid t none := by simp [Valid]
      rw [search,usartTest,slot]
      split <;> simp [bad]
    | some f =>
      have tests : usartTest t fname i = named t fname f := by simp [usartTest,slot]
      refine occupied_valid tests ?_ ih
      by_cases same : t.stdio.name f = fname <;> simp [same]

theorem usartScan_result {r : Option Slot} (ends : search (usartTest t fname) is = some r) :
    (usartScan fname null t.stdio is).1 = r.elim (-1) fun i => (i : Int) := by
  induction is with
  | nil =>
    obtain rfl := Option.some.inj ends
    rfl
  | cons i rest ih =>
    rw [search] at ends
    unfold usartScan
    cases slot : t.stdio.iob i with
    | none => simp [usartTest,slot] at ends
    | some f =>
      have test : usartTest t fname i = named t fname f := by simp [usartTest,slot]
      rw [test] at ends
      by_cases set : t.named f = true
      · by_cases same : t.stdio.name f = fname
        · have first : some i = r := by simpa [named,set,same] using ends
          simp [same,← first]
        · have later : search (usartTest t fname) rest = some r := by simpa [named,set,same] using ends
          simpa [same] using ih later
      · simp [named,set] at ends

theorem readScan_valid :
    (∀ e ∈ (readScan fname fmode c t.stdio is).2, Valid t e) ↔ search (openTest t fname) is ≠ none := by
  induction is with
  | nil => simp [readScan,search]
  | cons i rest ih =>
    unfold readScan
    cases slot : t.stdio.iob i with
    | none => simp [search,openTest,slot]
    | some f =>
      have tests : openTest t fname i = named t fname f := by simp [openTest,slot]
      refine occupied_valid tests ?_ ih
      by_cases same : t.stdio.name f = fname <;> simp [same]

theorem readWalk_valid {fuel : Nat} {p : Option Addr} {fs : List Addr} (chain : Chain t.stdio.next p fs)
    (enough : fs.length ≤ fuel) (set : ∀ f ∈ fs, t.named f = true) :
    (∀ e ∈ (readWalk fname fmode t.stdio fuel p).2, Valid t e) ↔
      ((∃ f ∈ fs, t.stdio.name f = fname) → search (openTest t fname) slots ≠ none) := by
  induction fs generalizing p fuel with
  | nil =>
    obtain rfl : p = none := chain
    cases fuel <;> simp [readWalk]
  | cons c fs ih =>
    obtain ⟨rfl,rest⟩ := chain
    obtain ⟨fuel,rfl⟩ : ∃ n, fuel = n + 1 := ⟨fuel - 1,by simp at enough; omega⟩
    have later := ih rest (by simpa using enough) fun f inside => set f (by simp [inside])
    have own : Valid t (some c) := valid_some.mpr (set c (by simp))
    unfold readWalk
    by_cases same : t.stdio.name c = fname
    · have scan : (∀ e ∈ (readScan fname fmode c t.stdio slots).2, Valid t e) ↔
          search (openTest t fname) slots ≠ none := readScan_valid
      have registered : ∃ f ∈ c::fs, t.stdio.name f = fname := ⟨c,by simp,same⟩
      rw [if_pos same,forall_prop_of_true registered]
      rcases reads : readScan fname fmode c t.stdio slots with ⟨_ | found,entries⟩
      · -- the table is full, and the walk goes on
        rw [reads] at scan
        dsimp only at scan ⊢
        rw [List.forall_mem_cons,and_iff_right own,List.forall_mem_append,later,scan]
        exact and_iff_left_of_imp fun ends _ => ends
      · rw [reads] at scan
        dsimp only at scan ⊢
        rw [List.forall_mem_cons,and_iff_right own,scan]
    · rw [if_neg same,List.forall_mem_cons,and_iff_right own,later]
      simp [same]

theorem readOpen_valid (sound : Sound fixed t) : (∀ e ∈ (readOpen fname fmode t.stdio).2, Valid t e) ↔
    ((∃ f, CanOpen t.stdio f ∧ t.stdio.name f = fname) → search (openTest t fname) slots ≠ none) := by
  obtain ⟨fs,chain,all⟩ := sound.listed
  refine (readWalk_valid chain (chain_short chain) fun f inside => (sound.plain f (all f inside)).1).trans ?_
  simp only [canOpen_iff chain]

def SpiSlot (s : Stdio Handler) (i : Slot) : Prop := ∃ f, s.iob i = some f ∧ Spi s f

/-- A file of the name is in the slot, and no SPI socket. -/
def Carries (s : Stdio Handler) (fname : List Char) (i : Slot) : Prop :=
  ∃ f, s.iob i = some f ∧ s.name f = fname ∧ ¬Spi s f

theorem named_iff (sound : Sound fixed t) (opened : t.stdio.iob i = some f) :
    (named t fname f = some true ↔ t.stdio.name f = fname ∧ ¬Spi t.stdio f) ∧
      (named t fname f = none ↔ Spi t.stdio f) := by
  have kind := sound.kind i f opened
  unfold named
  by_cases set : t.named f = true
  · have other := kind.mp set
    simp [set,other]
  · have spi : Spi t.stdio f := not_not.mp fun other => set (kind.mpr other)
    simp [set,spi]

theorem usartTest_iff (sound : Sound fixed t) (i : Slot) :
    (usartTest t fname i = some true ↔ Carries t.stdio fname i) ∧
      (usartTest t fname i = none ↔ t.stdio.iob i = none ∨ SpiSlot t.stdio i) := by
  unfold usartTest Carries SpiSlot
  cases slot : t.stdio.iob i with
  | none => simp
  | some f => simpa using named_iff sound slot

theorem openTest_iff (sound : Sound fixed t) (i : Slot) :
    (openTest t fname i = some true ↔ t.stdio.iob i = none ∨ Carries t.stdio fname i) ∧
      (openTest t fname i = none ↔ SpiSlot t.stdio i) := by
  unfold openTest Carries SpiSlot
  cases slot : t.stdio.iob i with
  | none => simp
  | some f => simpa using named_iff sound slot

/-- The slot of a file of the name, or -1 if there is none. -/
def Finds (s : Stdio Handler) (fname : List Char) (rc : Int) : Prop :=
  (∃ i f, 3 ≤ i ∧ rc = ((i : Slot) : Int) ∧ s.iob i = some f ∧ s.name f = fname) ∨
    rc = -1 ∧ ∀ i f, 3 ≤ i → s.iob i = some f → s.name f ≠ fname

theorem usartOpen_finds (sound : Sound fixed t) (ends : search (usartTest t fname) slots ≠ none) :
    Finds t.stdio fname (usartOpen fname null t.stdio).1 := by
  obtain ⟨r,found⟩ := Option.ne_none_iff_exists'.mp ends
  unfold usartOpen
  rw [usartScan_result found]
  have first := search_found found
  cases r with
  | none =>
    have missed : ∀ i ∈ slots, ¬usartTest t fname i = some true := by
      simpa using List.find?_eq_none.mp first.symm
    refine .inr ⟨rfl,fun i f high opened same => ?_⟩
    have inside := mem_slots.mpr high
    have read := (search_ends.mp ends).even missed i inside
    rw [(usartTest_iff sound i).2] at read
    refine missed i inside ((usartTest_iff sound i).1.mpr ⟨f,opened,same,fun spi => read (.inr ⟨f,opened,spi⟩)⟩)
  | some i =>
    have fits : usartTest t fname i = some true := by simpa using List.find?_some first.symm
    obtain ⟨f,opened,same,_⟩ := (usartTest_iff sound i).1.mp fits
    exact .inl ⟨i,f,mem_slots.mp (List.mem_of_find?_eq_some first.symm),rfl,opened,same⟩

/-- In every table, `open` of a registered name reads names that are set exactly if each SPI
socket is behind a free slot or a file of the name, and `usart_open` exactly if each free
slot is behind a file of the name, too. -/
theorem lookups_exact (reach : Reachable fixed t) (fname null : List Char) :
    (∀ fmode, (∀ e ∈ (readOpen fname fmode t.stdio).2, Valid t e) ↔
      ((∃ f, CanOpen t.stdio f ∧ t.stdio.name f = fname) →
        Covered (fun i => t.stdio.iob i = none ∨ Carries t.stdio fname i) (SpiSlot t.stdio) slots)) ∧
    ((∀ e ∈ (usartOpen fname null t.stdio).2, Valid t e) ∧
        Finds t.stdio fname (usartOpen fname null t.stdio).1 ↔
      Covered (Carries t.stdio fname) (fun i => t.stdio.iob i = none ∨ SpiSlot t.stdio i) slots) := by
  have sound := reachable_sound reach
  constructor
  · intro fmode
    rw [readOpen_valid sound,search_ends]
    rw [covered_congr (fun i => (openTest_iff sound i).1) fun i => (openTest_iff sound i).2]
  · have valid : (∀ e ∈ (usartOpen fname null t.stdio).2, Valid t e) ↔
        search (usartTest t fname) slots ≠ none := usartScan_valid
    rw [← covered_congr (fun i => (usartTest_iff sound i).1) fun i => (usartTest_iff sound i).2,← search_ends]
    exact ⟨fun right => valid.mp right.1,fun ends => ⟨valid.mpr ends,usartOpen_finds sound ends⟩⟩

def streams (f : Addr) : Prop := f = 0x700 ∨ f = 0x720

def i2cName : List Char := ['I','2','C','_','C','0']

def startTable : Table :=
  ⟨⟨⟨fun f => ⟨none,if f = 0x720 then i2cName else ['U','S','A','R','T','0'],3,0,none⟩,fun _ => none,none⟩,
    fun _ => false,none,fun _ => 0,fun _ => none,fun _ => none,fun _ => none,[]⟩,
    fun f => decide (f = 0x700) || decide (f = 0x720)⟩

theorem startTable_reachable : Reachable streams startTable := by
  refine .init ⟨fun _ => rfl,rfl,⟨fun _ => rfl,rfl⟩,fun f known => ⟨?_,rfl⟩⟩
  simpa [startTable,streams] using known

/-- I2C_C0 can be opened, and the socket of a SPI client is open. -/
def spiTable : Table :=
  ((startTable.setStdio (vfsAdd 0x720 startTable.stdio)).offer 0x600 ⟨none,[],0,0,none⟩).spidevSocket 0x40 0

theorem spiTable_reachable : Reachable streams spiTable := by
  have unlisted : ¬CanOpen startTable.stdio 0x720 := by
    rintro ⟨fs,chain,inside⟩
    rw [chain_unique chain (show Chain _ _ [] from rfl)] at inside
    cases inside
  have listed := startTable_reachable.step (.vfsAdd (.inr rfl) unlisted)
  have offered := listed.step (.offer (a := 0x600) ⟨none,[],0,0,none⟩ (by unfold streams; decide) rfl)
  exact offered.step (.spidevSocket 0x40 0)

theorem lookups_exact_spi :
    (∀ fmode, (∀ e ∈ (readOpen i2cName fmode spiTable.stdio).2, Valid spiTable e) ↔
      ((∃ f, CanOpen spiTable.stdio f ∧ spiTable.stdio.name f = i2cName) →
        Covered (fun i => spiTable.stdio.iob i = none ∨ Carries spiTable.stdio i2cName i)
          (SpiSlot spiTable.stdio) slots)) ∧
    ((∀ e ∈ (usartOpen i2cName [] spiTable.stdio).2, Valid spiTable e) ∧
        Finds spiTable.stdio i2cName (usartOpen i2cName [] spiTable.stdio).1 ↔
      Covered (Carries spiTable.stdio i2cName)
        (fun i => spiTable.stdio.iob i = none ∨ SpiSlot spiTable.stdio i) slots) :=
  lookups_exact spiTable_reachable i2cName []

/-- With nothing open, `usart_open` reads the name of the null pointer, and behind the socket
of a SPI client `open` reads a name that nobody has set. -/
theorem lookups_stray : Reachable streams startTable ∧
    (¬∀ e ∈ (usartOpen i2cName [] startTable.stdio).2, Valid startTable e) ∧
    Reachable streams spiTable ∧ CanOpen spiTable.stdio 0x720 ∧ spiTable.stdio.name 0x720 = i2cName ∧
    ¬∀ e ∈ (readOpen i2cName 3 spiTable.stdio).2, Valid spiTable e := by
  refine ⟨startTable_reachable,fun all => ?_,spiTable_reachable,?_,by decide +kernel,fun all => ?_⟩
  · obtain ⟨f,entry,_⟩ := all none (by decide +kernel)
    cases entry
  · have last : spiTable.stdio.next 0x720 = none := by decide +kernel
    exact ⟨[0x720],⟨by decide +kernel,last⟩,by simp⟩
  · have set := valid_some.mp (all (some 0x600) (by decide +kernel))
    have unset : spiTable.named 0x600 = false := by decide +kernel
    cases unset.symm.trans set

end BermudaOS.Dev.FileNames
