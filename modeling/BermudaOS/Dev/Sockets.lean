import BermudaOS.Dev.Drivers
import BermudaOS.Lib.Interference
import BermudaOS.Fs.OpenFiles

/-! The sockets of `dev/i2c/i2c-dev.c` and `dev/spi/spi-dev.c`, and `close`. The `FILE` of
a socket is allocated when it is opened, and its own close handler frees it. -/
namespace BermudaOS.Dev.Sockets
open Sys.VirtTimer Sys.Sched Lib.Program Lib.Clients Fs

/-- The close handlers of the sockets, with the client that is the `data` of the stream. -/
inductive Handler
  | i2cdev_close (client : Addr)
  | spidev_close (client : Addr)
  deriving DecidableEq

/-- A write to the descriptor field of a `FILE`, by the `close` of a slot. `own` tells
whether the `FILE` is the one that was opened in the slot and is still allocated. -/
structure Write where
  fd : Slot
  file : Addr
  own : Bool

/-- The open files, the blocks of the heap that are in use, and the fields of the
clients that name their sockets. `holder` is the slot in which an allocated `FILE` was
opened; `writes` are the writes of `close`. -/
structure Files where
  stdio : Stdio Handler
  allocated : Addr → Bool
  heapNext : Option Addr
  features : Addr → Nat
  socket : Addr → Option Addr
  stream : Addr → Option Addr
  holder : Addr → Option Int
  writes : List Write

def I2C_CLIENT_HAS_LOCK_FLAG : Nat := 2

/-- `BermudaHeapAlloc` of a `FILE`. -/
def bermudaHeapAlloc (d : Files) : Files × Option Addr :=
  match d.heapNext with
  | some a =>
    if d.allocated a then (d,none)
    else ({d with allocated := Function.update d.allocated a true,heapNext := none},some a)
  | none => (d,none)

def bermudaHeapFree (stream : Addr) (d : Files) : Files :=
  {d with
    allocated := Function.update d.allocated stream false
    holder := Function.update d.holder stream none}

def iobAdd (stream : Addr) (d : Files) : Files × Int :=
  let (stdio,rc) := Fs.iobAdd stream d.stdio
  if rc < 0 then ({d with stdio := stdio},rc)
  else ({d with stdio := stdio,holder := Function.update d.holder stream (some rc)},rc)

def spidevSocket (client : Addr) (flags : Nat) (d : Files) : Files × Int :=
  match bermudaHeapAlloc d with
  | (d,none) => (d,-1)
  | (d,some stream) =>
    let (d,rc) := iobAdd stream d
    if rc < 0 then (bermudaHeapFree stream d,-1)
    else
      ({d with
        stream := Function.update d.stream client (some stream)
        stdio := d.stdio.update stream fun f =>
          {f with flags := flags,close := some (.spidev_close client)}},rc)

def spidevClose (stream client : Addr) (d : Files) : Files × Int :=
  (bermudaHeapFree stream {d with stream := Function.update d.stream client none},0)

/-- `i2cdev_socket` once it has the mutex of the client; where it fails it gives the
mutex back. -/
def i2cdevAttach (client : Addr) (flags : Nat) (d : Files) : Files × Int :=
  match bermudaHeapAlloc d with
  | (d,none) => (d,-1)
  | (d,some socket) =>
    let (d,rc) := iobAdd socket d
    if rc < 0 then (bermudaHeapFree socket d,rc)
    else
      ({d with
        features := Function.update d.features client (d.features client ||| I2C_CLIENT_HAS_LOCK_FLAG)
        socket := Function.update d.socket client (some socket)
        stdio := d.stdio.update socket fun f =>
          {f with name := ['I','2','C'],flags := flags,close := some (.i2cdev_close client)}},rc)

/-- `i2cdev_close` until it signals the mutex. -/
def i2cdevRelease (stream client : Addr) (d : Files) : Files :=
  let d := bermudaHeapFree stream d
  {d with
    features := Function.update d.features client (d.features client &&& (255 - I2C_CLIENT_HAS_LOCK_FLAG))
    socket := Function.update d.socket client none}

/-- `__iob[fd]->fd = -1`. -/
def touch (fd : Slot) (file : Addr) (d : Files) : Files :=
  {d with
    stdio := d.stdio.setFd file (-1)
    writes := ⟨fd,file,decide (d.holder file = some (fd : Int))⟩::d.writes}

def drop (fd : Slot) (d : Files) : Files := {d with stdio := d.stdio.setSlot fd none}

abbrev SocketCode := Code Files Op Int

section Code

variable (mutex : Addr → Addr) (I2C_MASTER_TMO : Nat)

def i2cdevSocket (client : Addr) (flags : Nat) : SocketCode Int := do
  let rc ← Code.ask (.bermudaEventWait (mutex client) I2C_MASTER_TMO)
  if rc ≠ 0 then return -1
  let rc ← Code.exec (i2cdevAttach client flags)
  if rc < 0 then
    let _ ← Code.ask (.bermudaEventSignal (mutex client))
    return rc
  else return rc

def i2cdevClose (stream client : Addr) : SocketCode Int := do
  Code.write (i2cdevRelease stream client)
  let _ ← Code.ask (.bermudaEventSignal (mutex client))
  return 0

def Handler.run (stream : Addr) : Handler → SocketCode Int
  | .i2cdev_close client => i2cdevClose mutex stream client
  | .spidev_close client => Code.exec (spidevClose stream client)

/-- The end of `close`, after the handler. -/
def closeSlot (fd : Slot) (rc : Int) : SocketCode Int := do
  match ← Code.read fun d => d.stdio.iob fd with
  | none => .fault
  | some file =>
    Code.write (touch fd file)
    Code.write (drop fd)
    return rc

def close (fd : Slot) : SocketCode Int := do
  match ← Code.read fun d => d.stdio.iob fd with
  | none => return -1
  | some stream =>
    match ← Code.read fun d => (d.stdio.file stream).close with
    | none => closeSlot fd 0
    | some handler =>
      let rc ← handler.run mutex stream
      closeSlot fd rc

end Code

inductive Request
  | i2cdev_socket (client : Addr) (flags : Nat)
  | spidev_socket (client : Addr) (flags : Nat)
  | close (fd : Slot)
  deriving DecidableEq

/-- Which block the heap hands out next. -/
inductive Heap : Kernel × Files → Kernel × Files → Prop
  | next {k : Kernel} {d : Files} (a : Option Addr) : Heap (k,d) (k,{d with heapNext := a})

def drivers (u : Usage) (mutex : Addr → Addr) (I2C_MASTER_TMO : Nat) :
    Drivers Kernel Addr Op Int Files Request Int where
  body _
    | .i2cdev_socket client flags => i2cdevSocket mutex I2C_MASTER_TMO client flags
    | .spidev_socket client flags => Code.exec (spidevSocket client flags)
    | .close fd => close mutex fd
  begins i _ := i ≠ u.idle
  interrupt := Interrupt u Heap
  free _ := True

/-- The open files have their slots as descriptors, and a handler that closes them. -/
structure Clean (d : Files) : Prop where
  fd : ∀ f i, d.holder f = some i → (d.stdio.file f).fd = i
  handled : ∀ i f, d.stdio.iob i = some f → (d.stdio.file f).close ≠ none

/-- As long as `close` has not written, every slot keeps its `FILE`, and one that is no
longer the slot's own does not become so again. -/
def Grows (d e : Files) : Prop :=
  e.writes = [] → d.writes = [] ∧ ∀ i f, d.stdio.iob i = some f →
    e.stdio.iob i = some f ∧ (d.holder f ≠ some (i : Int) → e.holder f ≠ some (i : Int))

/-- The first write of `close` is not to its own `FILE`. -/
structure Traced (d : Files) : Prop where
  before : d.writes = [] → Clean d
  after : d.writes ≠ [] → ∃ w ∈ d.writes,w.own = false

def Kept (d e : Files) : Prop := Grows d e ∧ (Traced d → Traced e)

/-- Kept, and `close` writes nothing. -/
def Quiet (d e : Files) : Prop := Kept d e ∧ e.writes = d.writes

/-- The call is the `close` of a slot that holds a `FILE`. -/
def Occupied (d : Files) : Request → Prop
  | .close fd => d.stdio.iob fd ≠ none
  | _ => False

variable {d e : Files} {a : Addr} {i j fd : Slot}

theorem Grows.refl (d : Files) : Grows d d := fun clean => ⟨clean,fun _ _ opened => ⟨opened,id⟩⟩

theorem Grows.trans {c : Files} (first : Grows c d) (second : Grows d e) : Grows c e := by
  intro clean
  obtain ⟨middle,onward⟩ := second clean
  obtain ⟨start,before⟩ := first middle
  refine ⟨start,fun i f opened => ?_⟩
  obtain ⟨still,away⟩ := before i f opened
  obtain ⟨last,other⟩ := onward i f still
  exact ⟨last,other ∘ away⟩

theorem quiet_kept (writes : e.writes = d.writes)
    (grows : ∀ i f, d.stdio.iob i = some f → e.stdio.iob i = some f ∧
      (d.holder f ≠ some (i : Int) → e.holder f ≠ some (i : Int)))
    (clean : Clean d → Clean e) : Quiet d e := by
  refine ⟨⟨fun none => ⟨writes ▸ none,grows⟩,fun traced => ⟨fun none => ?_,fun some => ?_⟩⟩,writes⟩
  · exact clean (traced.before (writes ▸ none))
  · rw [writes] at some ⊢
    exact traced.after some

theorem quiet_opened (free : d.stdio.iob j = none) (writes : e.writes = d.writes)
    (iob : e.stdio.iob = Function.update d.stdio.iob j (some a))
    (holder : e.holder = Function.update d.holder a (some (j : Int)))
    (own : (e.stdio.file a).fd = j ∧ (e.stdio.file a).close ≠ none)
    (others : ∀ f, f ≠ a → e.stdio.file f = d.stdio.file f) : Quiet d e := by
  refine quiet_kept writes (fun i f opened => ?_) fun clean => ⟨fun f i held => ?_,fun i f opened => ?_⟩
  · have away : i ≠ j := by
      rintro rfl
      cases free.symm.trans opened
    rw [iob,holder,Function.update_of_ne away]
    refine ⟨opened,fun lost => ?_⟩
    by_cases same : f = a
    · subst same
      rw [Function.update_self]
      intro again
      have equal := Option.some.inj again
      exact away (Fin.ext (by omega))
    · rwa [Function.update_of_ne same]
  · rw [holder] at held
    by_cases same : f = a
    · subst same
      rw [Function.update_self] at held
      rw [← Option.some.inj held]
      exact own.1
    · rw [Function.update_of_ne same] at held
      rw [others f same]
      exact clean.fd f i held
  · by_cases same : f = a
    · subst same
      exact own.2
    · rw [others f same]
      rw [iob] at opened
      by_cases here : i = j
      · subst here
        rw [Function.update_self] at opened
        exact absurd (Option.some.inj opened).symm same
      · rw [Function.update_of_ne here] at opened
        exact clean.handled i f opened

theorem quiet_freed (writes : e.writes = d.writes) (stdio : e.stdio = d.stdio)
    (holder : e.holder = Function.update d.holder a none) : Quiet d e := by
  have still {f : Addr} {i : Int} (held : e.holder f = some i) : d.holder f = some i := by
    rw [holder] at held
    by_cases same : f = a
    · subst same
      simp at held
    · rwa [Function.update_of_ne same] at held
  refine quiet_kept writes (fun i f opened => ?_) fun clean => ⟨fun f i held => ?_,fun i f opened => ?_⟩
  · rw [stdio]
    exact ⟨opened,fun lost held => lost (still held)⟩
  · rw [stdio]
    exact clean.fd f i (still held)
  · rw [stdio] at opened ⊢
    exact clean.handled i f opened

theorem iobAdd_cases (stream : Addr) (d : Files) :
    iobAdd stream d = (d,-1) ∨ ∃ j : Slot, d.stdio.iob j = none ∧ iobAdd stream d =
      ({d with
        stdio := (d.stdio.setSlot j (some stream)).setFd stream j
        holder := Function.update d.holder stream (some (j : Int))},(j : Int)) := by
  rcases addScan_cases d.stdio stream slots with full | ⟨j,_,free,result⟩
  · refine .inl ?_
    unfold iobAdd Fs.iobAdd
    rw [full]
    rfl
  · refine .inr ⟨j,free,?_⟩
    unfold iobAdd Fs.iobAdd
    rw [result]
    exact if_neg (by simp)

theorem iobAdd_free {stream : Addr} (full : iobAdd stream d = (d,-1)) : ∀ i ∈ slots,d.stdio.iob i ≠ none := by
  rcases addScan_cases d.stdio stream slots with result | ⟨j,_,_,result⟩
  · exact addScan_free result
  · unfold iobAdd Fs.iobAdd at full
    rw [result] at full
    have positive : ¬(j : Int) < 0 := by omega
    dsimp only at full
    rw [if_neg positive] at full
    have equal := congrArg Prod.snd full
    dsimp only at equal
    omega

theorem heapAlloc_cases (d : Files) :
    bermudaHeapAlloc d = (d,none) ∨ ∃ a, d.allocated a = false ∧ bermudaHeapAlloc d =
      ({d with allocated := Function.update d.allocated a true,heapNext := none},some a) := by
  unfold bermudaHeapAlloc
  cases d.heapNext with
  | none => exact .inl rfl
  | some a =>
    cases used : d.allocated a with
    | true => exact .inl (if_pos used)
    | false => exact .inr ⟨a,used,by simp [used]⟩

theorem spidevSocket_quiet (client : Addr) (flags : Nat) (d : Files) :
    Quiet d (spidevSocket client flags d).1 := by
  unfold spidevSocket
  rcases heapAlloc_cases d with none | ⟨a,_,some⟩
  · rw [none]
    exact quiet_kept rfl (fun i f opened => ⟨opened,id⟩) id
  · rw [some]
    dsimp only
    rcases iobAdd_cases a {d with allocated := Function.update d.allocated a true,heapNext := none} with
      full | ⟨j,free,found⟩
    · rw [full]
      exact quiet_freed (a := a) rfl rfl rfl
    · rw [found]
      have positive : ¬(j : Int) < 0 := by omega
      dsimp only
      rw [if_neg positive]
      refine quiet_opened (j := j) (a := a) free rfl rfl rfl ?_ fun f other => ?_
      · simp [Stdio.update,Stdio.setFd,Stdio.setSlot]
      · simp [Stdio.update,Stdio.setFd,Stdio.setSlot,other]

theorem i2cdevAttach_quiet (client : Addr) (flags : Nat) (d : Files) :
    Quiet d (i2cdevAttach client flags d).1 := by
  unfold i2cdevAttach
  rcases heapAlloc_cases d with none | ⟨a,_,some⟩
  · rw [none]
    exact quiet_kept rfl (fun i f opened => ⟨opened,id⟩) id
  · rw [some]
    dsimp only
    rcases iobAdd_cases a {d with allocated := Function.update d.allocated a true,heapNext := none} with
      full | ⟨j,free,found⟩
    · rw [full]
      exact quiet_freed (a := a) rfl rfl rfl
    · rw [found]
      have positive : ¬(j : Int) < 0 := by omega
      dsimp only
      rw [if_neg positive]
      refine quiet_opened (j := j) (a := a) free rfl rfl rfl ?_ fun f other => ?_
      · simp [Stdio.update,Stdio.setFd,Stdio.setSlot]
      · simp [Stdio.update,Stdio.setFd,Stdio.setSlot,other]

/-- The handlers free the `FILE`, so it is no longer that of a slot. -/
theorem touch_kept {file : Addr} (gone : d.writes = [] → d.holder file ≠ some (fd : Int)) :
    Kept d (touch fd file d) := by
  refine ⟨fun none => absurd none (List.cons_ne_nil _ _),fun traced => ⟨fun none => ?_,fun _ => ?_⟩⟩
  · exact absurd none (List.cons_ne_nil _ _)
  · by_cases first : d.writes = []
    · refine ⟨_,List.mem_cons_self,?_⟩
      simpa using gone first
    · obtain ⟨w,inside,stray⟩ := traced.after first
      exact ⟨w,List.mem_cons_of_mem _ inside,stray⟩

theorem drop_kept (written : d.writes ≠ []) : Kept d (drop fd d) :=
  ⟨fun none => absurd none written,fun traced => ⟨fun none => absurd none written,traced.after⟩⟩

/-- Every step of a socket call keeps the files, whatever the other threads do. Only the
`close` of a slot that held a `FILE` writes, and it has done so when it returns. -/
def socketTerms (k : Request) (entry : Files) : Terms Files Op Int Int where
  env d e := ∃ a, e = {d with heapNext := a}
  rely _ := Grows
  admits _ _ := True
  returns _ _ := True
  asks op := (∃ q tmo, op = .bermudaEventWait q tmo) ∨ ∃ q, op = .bermudaEventSignal q
  guar _ d e := Kept d e ∧ (Occupied entry k ∨ e.writes = d.writes)
  post d _ := Occupied entry k → d.writes ≠ []
  crash := True
  env_refl d := ⟨d.heapNext,rfl⟩
  env_trans := by
    rintro _ _ _ ⟨_,rfl⟩ ⟨b,rfl⟩
    exact ⟨b,rfl⟩
  env_rely _ := by
    rintro d _ ⟨a,rfl⟩ clean
    exact ⟨clean,fun _ _ opened => ⟨opened,id⟩⟩
  rely_trans _ := Grows.trans

theorem quiet_refl (d : Files) : Quiet d d := ⟨⟨.refl d,id⟩,rfl⟩

theorem Quiet.guar {k : Request} {entry : Files} {pc : Nat} (quiet : Quiet d e) :
    (socketTerms k entry).guar pc d e := ⟨quiet.1,.inr quiet.2⟩

/-- The slot still has its `FILE`, which is no longer the slot's own. -/
def Passed (fd : Slot) (d : Files) : Prop :=
  d.writes = [] → ∃ f, d.stdio.iob fd = some f ∧ d.holder f ≠ some (fd : Int)

theorem Passed.later (passed : Passed fd d) (grows : Grows d e) : Passed fd e := by
  intro clean
  obtain ⟨start,before⟩ := grows clean
  obtain ⟨f,opened,away⟩ := passed start
  obtain ⟨still,other⟩ := before fd f opened
  exact ⟨f,still,other away⟩

theorem closeSlot_safe {k : Request} {entry : Files} {rc : Int} {pc : Nat} (occupied : Occupied entry k)
    (passed : Passed fd d) : (closeSlot fd rc).Safe (socketTerms k entry) pc d := by
  rintro _ ⟨a,rfl⟩ -
  refine ⟨(quiet_refl _).guar,?_⟩
  change (match d.stdio.iob fd with | none => _ | some file => _ : SocketCode Int).Safe _ _ _
  cases slot : d.stdio.iob fd with
  | none => trivial
  | some file =>
    rintro _ ⟨b,rfl⟩ -
    refine ⟨⟨touch_kept fun clean => ?_,.inl occupied⟩,?_⟩
    · obtain ⟨f,opened,away⟩ := passed clean
      obtain rfl := Option.some.inj (slot.symm.trans opened)
      exact away
    · rintro _ ⟨c,rfl⟩ -
      refine ⟨⟨drop_kept (List.cons_ne_nil _ _),.inl occupied⟩,?_⟩
      rintro _ ⟨_,rfl⟩ _
      exact List.cons_ne_nil _ _

theorem freed_passed {stream : Addr} (opened : d.writes = [] → d.stdio.iob fd = some stream)
    (writes : e.writes = d.writes) (iob : e.stdio.iob = d.stdio.iob)
    (holder : e.holder = Function.update d.holder stream none) : Passed fd e := by
  intro clean
  refine ⟨stream,?_,?_⟩
  · rw [iob]
    exact opened (writes ▸ clean)
  · rw [holder,Function.update_self]
    exact fun held => nomatch held

theorem close_safe {mutex : Addr → Addr} (traced : Traced d) :
    (close mutex fd).Safe (socketTerms (.close fd) d) 0 d := by
  rintro _ ⟨a,rfl⟩ -
  refine ⟨(quiet_refl _).guar,?_⟩
  change (match d.stdio.iob fd with | none => _ | some stream => _ : SocketCode Int).Safe _ _ _
  cases slot : d.stdio.iob fd with
  | none => exact fun _ _ occupied => absurd slot occupied
  | some stream =>
    have occupied : Occupied d (.close fd) := fun none => nomatch slot.symm.trans none
    rintro _ ⟨b,rfl⟩ -
    refine ⟨(quiet_refl _).guar,?_⟩
    change (match (d.stdio.file stream).close with | none => _ | some handler => _ : SocketCode Int).Safe _ _ _
    cases closes : (d.stdio.file stream).close with
    | none =>
      refine closeSlot_safe occupied fun clean => ?_
      exact absurd closes ((traced.before clean).handled fd stream slot)
    | some handler =>
      cases handler with
      | i2cdev_close client =>
        rintro _ ⟨c,rfl⟩ -
        refine ⟨Quiet.guar ?_,.inr ⟨_,rfl⟩,fun e r grows _ => ?_⟩
        · exact quiet_freed (a := stream) rfl rfl rfl
        · refine closeSlot_safe occupied (Passed.later ?_ grows)
          exact freed_passed (fun _ => slot) rfl rfl rfl
      | spidev_close client =>
        rintro _ ⟨c,rfl⟩ -
        refine ⟨Quiet.guar ?_,?_⟩
        · exact quiet_freed (a := stream) rfl rfl rfl
        · exact closeSlot_safe occupied (freed_passed (fun _ => slot) rfl rfl rfl)

theorem i2cdevSocket_safe {mutex : Addr → Addr} {tmo : Nat} {client : Addr} {flags : Nat} :
    (i2cdevSocket mutex tmo client flags).Safe (socketTerms (.i2cdev_socket client flags) e) 0 d := by
  refine ⟨.inl ⟨_,_,rfl⟩,fun e r _ _ => ?_⟩
  change (if r ≠ 0 then _ else _ : SocketCode Int).Safe _ _ _
  split
  · exact fun _ _ => False.elim
  · rintro f _ -
    refine ⟨(i2cdevAttach_quiet client flags f).guar,?_⟩
    change (if (i2cdevAttach client flags f).2 < 0 then _ else _ : SocketCode Int).Safe _ _ _
    split
    · exact ⟨.inr ⟨_,rfl⟩,fun _ _ _ _ _ _ => False.elim⟩
    · exact fun _ _ => False.elim

theorem spidevSocket_safe {client : Addr} {flags : Nat} :
    (Code.exec (spidevSocket client flags) : SocketCode Int).Safe (socketTerms (.spidev_socket client flags) e)
      0 d := by
  rintro f _ -
  exact ⟨(spidevSocket_quiet client flags f).guar,fun _ _ => False.elim⟩

/-- No event queue is a lock here, and interrupts may signal all of them. -/
def socketUsage (idle : Addr) : Usage where
  idle := idle
  lock _ := False
  raised _ _ := True
  notifies t k := (k.thread t).state = .waiting
  apart _ _ _ := id

abbrev SocketMachine := Machine Kernel Addr Op Int Files Request Int

/-- No file is open. -/
structure NoFiles (d : Files) : Prop where
  iob : ∀ i, d.stdio.iob i = none
  holder : ∀ f, d.holder f = none
  writes : d.writes = []

abbrev SocketRuns (idle : Addr) (mutex : Addr → Addr) (I2C_MASTER_TMO : Nat) : SocketMachine → Prop :=
  Runs (scheduler (socketUsage idle)) (drivers (socketUsage idle) mutex I2C_MASTER_TMO) (fun _ _ => True)
    (Started (socketUsage idle) NoFiles)

abbrev SocketStep (idle : Addr) (mutex : Addr → Addr) (I2C_MASTER_TMO : Nat) :
    SocketMachine → SocketMachine → Prop :=
  Lib.Clients.Step (scheduler (socketUsage idle)) (drivers (socketUsage idle) mutex I2C_MASTER_TMO)

/-- The states that a run reaches from `m` on. -/
abbrev LaterRuns (idle : Addr) (mutex : Addr → Addr) (I2C_MASTER_TMO : Nat) (m : SocketMachine) :
    SocketMachine → Prop :=
  Runs (scheduler (socketUsage idle)) (drivers (socketUsage idle) mutex I2C_MASTER_TMO) (fun _ _ => True)
    fun first => first = m

/-- Where the running thread begins a call, that is not the `close` of a slot that holds
a `FILE`. -/
def Spares (m n : SocketMachine) : Prop :=
  m.job m.running = none → ∀ j ∈ n.job m.running,¬Occupied m.dev j.op

/-- The runs in which no thread begins to close an open socket. -/
abbrev SparedRuns (idle : Addr) (mutex : Addr → Addr) (I2C_MASTER_TMO : Nat) : SocketMachine → Prop :=
  Runs (scheduler (socketUsage idle)) (drivers (socketUsage idle) mutex I2C_MASTER_TMO) Spares
    (Started (socketUsage idle) NoFiles)

/-- `close` writes only to the `FILE` that is still allocated in its slot, and every open
`FILE` has its slot as descriptor. -/
structure OwnOnly (d : Files) : Prop where
  own : ∀ w ∈ d.writes,w.own = true
  fd : ∀ i f, d.stdio.iob i = some f → d.holder f = some (i : Int) → (d.stdio.file f).fd = i

variable {idle : Addr} {mutex : Addr → Addr} {tmo : Nat} {m n : SocketMachine}

theorem sockets_compatible : Compatible (drivers (socketUsage idle) mutex tmo) (fun _ _ => True)
    (fun _ => socketTerms) Traced where
  irq s t d e irq traced := by
    cases irq with
    | kernel => exact ⟨traced,fun i k f => (socketTerms k f).env_refl _⟩
    | device cut =>
      cases cut with
      | next a =>
        refine ⟨⟨fun clean => ?_,traced.after⟩,fun _ _ _ => ⟨a,rfl⟩⟩
        exact ⟨(traced.before clean).fd,(traced.before clean).handled⟩
  body i k d _ traced := by
    cases k with
    | i2cdev_socket => exact i2cdevSocket_safe
    | spidev_socket => exact spidevSocket_safe
    | close => exact close_safe traced
  admits _ _ _ _ _ _ _ _ _ := trivial
  returns _ _ _ _ _ _ _ _ _ _ _ _ := trivial
  keeps _ _ _ _ _ _ guar := guar.1.2
  others _ _ _ _ _ _ _ _ _ _ _ guar := guar.1.1

theorem sockets_safe (run : SocketRuns idle mutex tmo m) :
    AllSafe (drivers (socketUsage idle) mutex tmo) (fun _ => socketTerms) Traced m := by
  have start (m : SocketMachine) (started : Started (socketUsage idle) NoFiles m) :
      AllSafe (drivers (socketUsage idle) mutex tmo) (fun _ => socketTerms) Traced m := by
    obtain ⟨_,⟨iob,holder,writes⟩,jobs⟩ := started
    refine ⟨⟨fun _ => ⟨fun f i held => ?_,fun i f opened => ?_⟩,fun some => absurd writes some⟩,
      fun i j job => ?_,fun i _ present => ?_,fun i j job => ?_⟩
    · cases (holder f).symm.trans held
    · cases (iob i).symm.trans opened
    · cases (jobs i).symm.trans job
    · rw [jobs i] at present
      cases present
    · cases (jobs i).symm.trans job
  refine (drivers_keep (fun _ _ => Interrupt.below) start ?_ ?_ run).2.2
  · intro m op _ all ask
    obtain ⟨_,real,⟨q,tmo,rfl⟩ | ⟨q,rfl⟩⟩ := all.asks ask
    · exact real
    · exact False.elim
  · exact fun m n _ _ matching all step admitted => safe_step sockets_compatible matching all step admitted

/-- A step writes only as the `close` of a slot that held a `FILE`, and takes no write
back. -/
theorem writes_step (run : SocketRuns idle mutex tmo m) (step : SocketStep idle mutex tmo m n) :
    (n.dev.writes = [] → m.dev.writes = []) ∧
      (n.dev.writes = m.dev.writes ∨ ∃ j, m.job m.running = some j ∧ Occupied j.entry j.op) := by
  rcases guar_step sockets_compatible (sockets_safe run) step trivial with same | irq | ⟨j,job,kept,writes⟩
  · rw [same]
    exact ⟨id,.inl rfl⟩
  · have same : n.dev.writes = m.dev.writes := by
      generalize before : (m.kernel.state,m.dev) = s at irq
      generalize after : (n.kernel.state,n.dev) = t at irq
      cases irq with
      | kernel =>
        rw [(Prod.mk.inj before).2,(Prod.mk.inj after).2]
      | device cut =>
        cases cut with
        | next a =>
          rw [(Prod.mk.inj before).2,(Prod.mk.inj after).2]
    rw [same]
    exact ⟨id,.inl rfl⟩
  · refine ⟨fun none => (kept.1 none).1,?_⟩
    rcases writes with occupied | same
    · exact .inr ⟨j,job,occupied⟩
    · exact .inl same

/-- No thread has begun to close an open socket, and `close` has not written. -/
structure Spared (m : SocketMachine) : Prop where
  writes : m.dev.writes = []
  jobs : ∀ i j, m.job i = some j → ¬Occupied j.entry j.op

theorem spared_step (run : SocketRuns idle mutex tmo m) (step : SocketStep idle mutex tmo m n)
    (spares : Spares m n) (spared : Spared m) : Spared n := by
  refine ⟨?_,fun i j job => ?_⟩
  · rcases (writes_step run step).2 with same | ⟨j,job,occupied⟩
    · exact same.trans spared.writes
    · exact absurd occupied (spared.jobs _ j job)
  · rcases step_job step job with ⟨l,before,op,entry⟩ | ⟨rfl,free,entry⟩
    · rw [← op,← entry]
      exact spared.jobs i l before
    · rw [entry]
      exact spares free j job

theorem spared_run (run : SparedRuns idle mutex tmo m) : Spared m := by
  induction run with
  | init started => exact ⟨started.dev.writes,fun i j job => nomatch (started.jobs i).symm.trans job⟩
  | step run step spares ih => exact spared_step (runs_mono run fun _ _ _ => trivial) step spares ih

theorem written_later {o : SocketMachine} (run : SocketRuns idle mutex tmo m)
    (later : LaterRuns idle mutex tmo m o) (written : m.dev.writes ≠ []) : o.dev.writes ≠ [] := by
  induction later with
  | init start =>
    subst start
    exact written
  | step later step _ ih => exact fun none => ih ((writes_step (runs_onward run later) step).1 none)

/-- A `close` that was begun with a `FILE` in its slot has written when it returns. -/
theorem closed_written {t : Addr} {entry : Files} {pc : Nat} {v : Int} (run : SocketRuns idle mutex tmo m)
    (job : m.job t = some ⟨.close fd,entry,pc,.ret v⟩) (occupied : entry.stdio.iob fd ≠ none) :
    m.dev.writes ≠ [] :=
  (sockets_safe run).safe t _ job m.dev ((socketTerms (.close fd) entry).env_refl _) occupied

/-- As long as no thread closes a slot that holds a `FILE`, the sockets touch no other
memory. Once such a `close` has returned it has written to a `FILE` that was no longer its
own. -/
theorem close_ownOnly :
    (∀ m, SparedRuns idle mutex tmo m → OwnOnly m.dev) ∧
      ∀ m o t fd entry pc v, SocketRuns idle mutex tmo m → m.job t = some ⟨.close fd,entry,pc,.ret v⟩ →
        entry.stdio.iob fd ≠ none → LaterRuns idle mutex tmo m o → ¬OwnOnly o.dev := by
  constructor
  · intro m run
    have none := (spared_run run).writes
    have clean := (sockets_safe (runs_mono run fun _ _ _ => trivial)).inv.before none
    refine ⟨fun w inside => ?_,fun i f _ held => clean.fd f i held⟩
    rw [none] at inside
    cases inside
  · intro m o t fd entry pc v run job occupied later only
    have written := written_later run later (closed_written run job occupied)
    obtain ⟨w,inside,stray⟩ := (sockets_safe (runs_onward run later)).inv.after written
    cases stray.symm.trans (only.own w inside)

section Script

variable {u : Usage} {q t : Addr} {k : Kernel} {r : Request}

instance : DecidablePred (socketUsage idle).lock := fun _ => isFalse id

instance : Decidable ((socketUsage idle).raised q k) := isTrue trivial

instance : Decidable ((socketUsage idle).notifies t k) := inferInstanceAs (Decidable (_ = _))

instance : DecidablePred (drivers u mutex tmo).free := fun _ => isTrue trivial

instance : Decidable ((drivers u mutex tmo).begins a r) := inferInstanceAs (Decidable (_ ≠ _))

instance : Decidable (Occupied d r) :=
  match r with
  | .close fd => inferInstanceAs (Decidable (d.stdio.iob fd ≠ none))
  | .i2cdev_socket _ _ => isFalse id
  | .spidev_socket _ _ => isFalse id

instance : DecidableRel Spares := fun m n =>
  inferInstanceAs (Decidable (m.job m.running = none → ∀ j ∈ n.job m.running,¬Occupied m.dev j.op))

def nextBlock (a : Option Addr) (s : Kernel × Files) : Option (Kernel × Files) :=
  some (s.1,{s.2 with heapNext := a})

theorem nextBlock_interrupt (a : Option Addr) (s t : Kernel × Files) (happens : nextBlock a s = some t) :
    Interrupt u Heap s t := by
  obtain rfl := Option.some.inj happens
  exact .device (.next a) (.inl rfl)

end Script

def startMachine : SocketMachine :=
  ⟨bootConfig (socketUsage 0x100) [0x40] 0x500,
    ⟨⟨fun _ => ⟨none,[],0,0,none⟩,fun _ => none,none⟩,fun _ => false,some 0x600,fun _ => 0,
      fun _ => none,fun _ => none,fun _ => none,[]⟩,fun _ => none⟩

theorem startMachine_started : Started (socketUsage 0x100) NoFiles startMachine :=
  ⟨bootConfig_booted (by decide) fun q => by simp [socketUsage],⟨fun _ => rfl,fun _ => rfl,rfl⟩,fun _ => rfl⟩

theorem startMachine_runs : SocketRuns 0x100 id 500 startMachine := .init startMachine_started

theorem startMachine_spared : SparedRuns 0x100 id 500 startMachine := .init startMachine_started

/-- MAIN opens a socket of an I2C client. -/
def socketOpened : List (Event (Option Addr) Op Request) :=
  [.invoke (.bermudaThreadCreate 0x200 ['M','A','I','N'] 150),.run 40,.invoke .bermudaThreadYield,
    .run 80,.begin (.i2cdev_socket 0x40 0),.run 60]

/-- MAIN closes its socket, up to the return of `close`. -/
def socketClosed : List (Event (Option Addr) Op Request) :=
  socketOpened ++ [.begin (.close 3),.run 31]

/-- The `close` of an open socket is about to return. -/
def Returns (m : SocketMachine) : Prop :=
  ∃ j ∈ m.job 0x200,j.op = .close 3 ∧ j.entry.stdio.iob 3 ≠ none ∧ j.rest.result = some 0

instance : DecidablePred Returns := fun m => inferInstanceAs (Decidable (∃ j ∈ m.job 0x200,_))

theorem close_ownOnly_opened :
    (∃ m : SocketMachine, m.dev.holder 0x600 = some 3 ∧ OwnOnly m.dev) ∧
      ∃ m : SocketMachine, Returns m ∧ ¬OwnOnly m.dev := by
  constructor
  · obtain ⟨m,run,opened⟩ := script_ends socketOpened (P := fun m => m.dev.holder 0x600 = some 3)
      startMachine_spared nextBlock_interrupt (by decide +kernel)
    exact ⟨m,opened,close_ownOnly.1 m run⟩
  · obtain ⟨m,run,returns⟩ := script_ends socketClosed (P := Returns)
      startMachine_runs nextBlock_interrupt (by decide +kernel)
    obtain ⟨⟨op,entry,pc,rest⟩,job,rfl,occupied,result⟩ := returns
    obtain rfl := Code.result_some result
    exact ⟨m,⟨_,job,rfl,occupied,rfl⟩,close_ownOnly.2 m m 0x200 3 entry pc 0 run job occupied (.init rfl)⟩

/-- A waits for the client, MAIN closes its socket, and A is handed the memory of it. -/
def socketReused : List (Event (Option Addr) Op Request) :=
  socketOpened ++ [.invoke (.bermudaThreadCreate 0x300 ['A'] 100),.run 40,.invoke .bermudaThreadYield,
    .run 80,.begin (.i2cdev_socket 0x40 0),.run 100,.begin (.close 3),.run 4,.interrupt (some 0x600),
    .run 100,.invoke (.bermudaThreadSleep 10),.run 200]

/-- The `close` of MAIN has overwritten the descriptor of the socket of A. -/
theorem close_overwrites : ∃ m : SocketMachine, SocketRuns 0x100 id 500 m ∧ ¬OwnOnly m.dev ∧
    m.dev.stdio.iob 4 = some 0x600 ∧ m.dev.holder 0x600 = some 4 ∧ (m.dev.stdio.file 0x600).fd = -1 := by
  obtain ⟨m,run,slot,held,lost⟩ := script_ends socketReused
    (P := fun m => m.dev.stdio.iob 4 = some 0x600 ∧ m.dev.holder 0x600 = some 4 ∧
      (m.dev.stdio.file 0x600).fd = -1) startMachine_runs nextBlock_interrupt (by decide +kernel)
  refine ⟨m,run,fun only => ?_,slot,held,lost⟩
  cases lost.symm.trans (only.fd 4 _ slot held)

end BermudaOS.Dev.Sockets
