import BermudaOS.Dev.Sockets

/-! The SPI RAM of `lib/spiram.c`, on the SPI core and its sockets. A transfer is staged
in the client, which all calls share, and goes to the adapter when its lock is taken. -/
namespace BermudaOS.Dev.SpiRam
open Sys.VirtTimer Sys.Sched Lib.Program Lib.Clients Fs Sockets

structure SpiClient where
  cs : Nat
  cspin : Nat
  freq : Nat
  buff : Addr
  length : Nat

structure SharedInfo where
  cs : Nat
  cspin : Nat
  freq : Nat
  deriving DecidableEq

structure Adapter where
  buff : Addr
  length : Nat

/-- A transfer on the bus and the thread in whose call it was made. -/
structure Transfer where
  caller : Addr
  info : SharedInfo
  sent : List Nat
  received : List Nat
  deriving DecidableEq

/-- The clients and the adapter of the SPI bus. `ram` is the array that each thread has on
its stack for its call, `miso` the bytes that the bus shifts in one after the other.
`user` is the thread that opened a slot, `waiting` the threads that wait for the lock,
and `log` the transfers, the last one first. -/
structure Spi where
  files : Files
  client : Addr → SpiClient
  adapter : Adapter
  ram : Addr → List Nat
  miso : Nat → Nat
  clock : Nat
  user : Slot → Option Addr
  waiting : List Addr
  log : List Transfer

abbrev SpiCode := Code Spi Op Int

def WRDA : Nat := 2

def RDDA : Nat := 3

def BERMUDA_SPIRAM_WRITE_BYTE_SEQ_LEN : Nat := 4

def BERMUDA_SPIRAM_READ_BYTE_SEQ_LEN : Nat := 4

def FDEV_SETUP_RW : Nat := 3

def SWR : Nat := 2

def SPI_MASTER : Nat := 0x100

def Spi.setFiles (files : Files) (d : Spi) : Spi := {d with files := files}

def setRam (i : Addr) (bytes : List Nat) (d : Spi) : Spi := {d with ram := Function.update d.ram i bytes}

def slotOf (fd : Int) : Slot := Fin.ofNat maxOpen fd.toNat

/-- `spidev_socket`, called by the thread `i`. -/
def openSocket (i client : Addr) (flags : Nat) (d : Spi) : Spi × Int :=
  let (files,rc) := spidevSocket client flags d.files
  if rc < 0 then ({d with files := files},rc)
  else ({d with files := files,user := Function.update d.user (slotOf rc) (some i)},rc)

def spiSetBuff (client buff : Addr) (size : Nat) (d : Spi) : Spi :=
  {d with client := Function.update d.client client {d.client client with buff := buff,length := size}}

/-- `spidev_write` and `spidev_read`. -/
def spidevStage (client buff : Addr) (size : Nat) (d : Spi) : Spi × Int :=
  if size = 0 then (d,-2) else (spiSetBuff client buff size d,0)

def enter (i : Addr) (d : Spi) : Spi := {d with waiting := i::d.waiting}

def leave (i : Addr) (d : Spi) : Spi := {d with waiting := d.waiting.filter (· ≠ i)}

/-- What `spi_flush_client` hands to the adapter. -/
def handOut (client : Addr) (d : Spi) : Spi × SharedInfo :=
  let own := d.client client
  ({d with adapter := ⟨own.buff,own.length⟩},⟨own.cs,own.cspin,own.freq⟩)

/-- The buffer of the adapter. -/
def Spi.bytes (d : Spi) : List Nat := d.ram d.adapter.buff

/-- The buffer of the adapter is written, and so many bytes have come in. -/
def refill (bytes : List Nat) (n : Nat) (d : Spi) : Spi :=
  {d with ram := Function.update d.ram d.adapter.buff bytes,clock := d.clock + n}

/-- The loop of `atmega_spi_transfer`, with the bytes that it sends and receives. -/
def transferLoop : Nat → Nat → Spi → Spi × List Nat × List Nat
  | 0,_,d => (d,[],[])
  | n+1,idx,d =>
    let byte := d.miso d.clock
    let (e,sent,received) := transferLoop n (idx + 1) (refill (d.bytes.set idx byte) 1 d)
    (e,d.bytes.getD idx 0::sent,byte::received)

def atmegaSpiTransfer (i : Addr) (info : SharedInfo) (d : Spi) : Spi × Int :=
  let (e,sent,received) := transferLoop d.adapter.length 0 d
  ({e with log := ⟨i,info,sent,received⟩::e.log},0)

section Code

variable (mutex : Addr)

/-- `spi_client_is_master` reads the flags of the stream of the client. -/
def isMaster (client : Addr) : SpiCode Bool := do
  match ← Code.read fun d => (d.files.stream client).map fun f => (d.files.stdio.file f).flags with
  | none => .fault
  | some flags => return flags &&& SPI_MASTER ≠ 0

def spiLockAdapter (i : Addr) (master : Bool) : SpiCode Int := do
  if master then
    Code.write (enter i)
    let rc ← Code.ask (.bermudaEventWait mutex 500)
    Code.write (leave i)
    return rc
  else return 0

def spiUnlockAdapter (master : Bool) : SpiCode Int :=
  if master then Code.ask (.bermudaEventSignal mutex) else return 0

/-- What `spi_flush_client` does once it has the lock. -/
def flushLocked (i client : Addr) : SpiCode Int := do
  let info ← Code.exec (handOut client)
  let rc ← Code.exec (atmegaSpiTransfer i info)
  let _ ← spiUnlockAdapter mutex (← isMaster client)
  return rc

def spiFlushClient (i client : Addr) : SpiCode Int := do
  let rc ← spiLockAdapter mutex i (← isMaster client)
  if rc = 0 then flushLocked mutex i client else return rc

def write (fd : Slot) (buff : Addr) (size : Nat) : SpiCode Int := do
  match ← Code.read fun d => d.files.stdio.iob fd with
  | none => return -1
  | some stream =>
    let file ← Code.read fun d => d.files.stdio.file stream
    if file.flags &&& SWR = 0 then return -2
    match file.close with
    | some (.spidev_close client) => Code.exec (spidevStage client buff size)
    | _ => .fault

def read (fd : Slot) (buff : Addr) (size : Nat) : SpiCode Int := do
  match ← Code.read fun d => d.files.stdio.iob fd with
  | none => .fault
  | some stream =>
    let file ← Code.read fun d => d.files.stdio.file stream
    match file.close with
    | some (.spidev_close client) => Code.exec (spidevStage client buff size)
    | _ => .fault

def flush (i : Addr) (fd : Slot) : SpiCode Int := do
  match ← Code.read fun d => d.files.stdio.iob fd with
  | none => return -1
  | some stream =>
    let file ← Code.read fun d => d.files.stdio.file stream
    match file.close with
    | some (.spidev_close client) => spiFlushClient mutex i client
    | _ => return -1

def close (fd : Slot) : SpiCode Int := (Sockets.close id fd).on Spi.files Spi.setFiles

def spiramWriteByte (client i : Addr) (address byte : Nat) : SpiCode Int := do
  Code.write (setRam i [WRDA,(address >>> 8) &&& 0xFF,address &&& 0xFF,byte])
  let fd ← Code.exec (openSocket i client (FDEV_SETUP_RW ||| SPI_MASTER))
  if 0 ≤ fd then
    let _ ← write (slotOf fd) i BERMUDA_SPIRAM_WRITE_BYTE_SEQ_LEN
    let rc ← flush mutex i (slotOf fd)
    let _ ← close (slotOf fd)
    return rc
  else return -1

def spiramReadByte (client i : Addr) (address : Nat) : SpiCode Int := do
  Code.write (setRam i [RDDA,(address >>> 8) &&& 0xFF,address &&& 0xFF,0xFF])
  let fd ← Code.exec (openSocket i client (FDEV_SETUP_RW ||| SPI_MASTER))
  if 0 ≤ fd then
    let _ ← read (slotOf fd) i BERMUDA_SPIRAM_READ_BYTE_SEQ_LEN
    let _ ← flush mutex i (slotOf fd)
    let _ ← close (slotOf fd)
    return ← Code.read fun d => ((d.ram i).getD 3 0 : Int)
  else return ← Code.read fun d => ((d.ram i).getD 3 0 : Int)

end Code

inductive Request
  | spiram_write_byte (address byte : Nat)
  | spiram_read_byte (address : Nat)
  deriving DecidableEq

/-- The bytes that a call puts on the bus. -/
def Request.sequence : Request → List Nat
  | .spiram_write_byte address byte => [WRDA,(address >>> 8) &&& 0xFF,address &&& 0xFF,byte]
  | .spiram_read_byte address => [RDDA,(address >>> 8) &&& 0xFF,address &&& 0xFF,0xFF]

inductive Heap : Kernel × Spi → Kernel × Spi → Prop
  | next {k : Kernel} {d : Spi} (a : Option Addr) :
      Heap (k,d) (k,d.setFiles {d.files with heapNext := a})

def drivers (u : Usage) (mutex client : Addr) : Drivers Kernel Addr Op Int Spi Request Int where
  body i
    | .spiram_write_byte address byte => spiramWriteByte mutex client i address byte
    | .spiram_read_byte address => spiramReadByte mutex client i address
  begins i _ := i ≠ u.idle
  interrupt := Interrupt u Heap
  free _ := True

variable {d e : Spi}

section Transfer

/-- The bytes that the bus shifts in next. -/
def incoming (d : Spi) (n : Nat) : List Nat := (List.range n).map fun k => d.miso (d.clock + k)

theorem incoming_succ (n : Nat) (bytes : List Nat) (d : Spi) :
    d.miso d.clock::incoming (refill bytes 1 d) n = incoming d (n + 1) := by
  unfold incoming
  rw [List.range_succ_eq_map,List.map_cons,List.map_map]
  refine congrArg _ (List.map_congr_left fun k _ => congrArg d.miso ?_)
  simp only [refill,Nat.succ_eq_add_one]
  omega

theorem refill_bytes (bytes : List Nat) (n : Nat) (d : Spi) : (refill bytes n d).bytes = bytes :=
  Function.update_self _ _ _

theorem refill_refill (first bytes : List Nat) (n k : Nat) (d : Spi) :
    refill bytes k (refill first n d) = refill bytes (n + k) d := by
  simp [refill,Function.update_idem,Nat.add_assoc]

/-- The loop replaces the bytes of the buffer by those that come in. -/
theorem transferLoop_eq (n idx : Nat) (d : Spi) (room : idx + n ≤ d.bytes.length) :
    transferLoop n idx d =
      (refill (d.bytes.take idx ++ incoming d n ++ d.bytes.drop (idx + n)) n d,
        (d.bytes.drop idx).take n,incoming d n) := by
  induction n generalizing idx d with
  | zero =>
    have same : refill d.bytes 0 d = d := by simp [refill,Spi.bytes]
    simp [transferLoop,incoming,same]
  | succ n ih =>
    have inside : idx < d.bytes.length := by omega
    have onward := ih (idx + 1) (refill (d.bytes.set idx (d.miso d.clock)) 1 d)
      (by rw [refill_bytes,List.length_set]; omega)
    unfold transferLoop
    dsimp only
    rw [onward,refill_bytes,refill_refill,← incoming_succ n (d.bytes.set idx (d.miso d.clock)) d]
    have front : (d.bytes.set idx (d.miso d.clock)).take (idx + 1) = d.bytes.take idx ++ [d.miso d.clock] := by
      rw [List.take_add_one,List.getElem?_set_self inside,List.take_set_of_le (Nat.le_refl _)]
      rfl
    have back : (d.bytes.set idx (d.miso d.clock)).drop (idx + 1 + n) = d.bytes.drop (idx + (n + 1)) := by
      rw [List.drop_set_of_lt (by omega),Nat.add_assoc,Nat.add_comm 1 n]
    have out : d.bytes.getD idx 0::((d.bytes.set idx (d.miso d.clock)).drop (idx + 1)).take n =
        (d.bytes.drop idx).take (n + 1) := by
      rw [List.drop_set_of_lt (by omega),List.drop_eq_getElem_cons inside,List.take_succ_cons]
      simp [inside]
    rw [front,back,out,List.append_assoc,List.append_assoc,List.append_assoc,Nat.add_comm 1 n]
    rfl

end Transfer

/-- The transfers of a thread. -/
def mine (i : Addr) (d : Spi) : List Transfer := d.log.filter (·.caller = i)

def info (client : Addr) (d : Spi) : SharedInfo :=
  ⟨(d.client client).cs,(d.client client).cspin,(d.client client).freq⟩

/-- What the calls stage in the client before they wait for the lock. -/
def staged (client : Addr) (d : Spi) : Option Addr × SpiClient := (d.files.stream client,d.client client)

variable {client mutex i j f : Addr} {fd : Slot}

/-- The slot holds the socket that the call of the thread `i` has opened. -/
structure Live (client : Addr) (d : Spi) (fd : Slot) (f i : Addr) : Prop where
  user : d.user fd = some i
  slot : d.files.stdio.iob fd = some f
  held : d.files.holder f = some (fd : Int)
  flags : (d.files.stdio.file f).flags = FDEV_SETUP_RW ||| SPI_MASTER
  close : (d.files.stdio.file f).close = some (.spidev_close client)

/-- What the others leave to the thread `i`. While it waits for the lock that includes
what is staged. -/
structure Untouched (client i : Addr) (d e : Spi) : Prop where
  live : ∀ fd f, Live client d fd f i → Live client e fd f i
  ram : e.ram i = d.ram i
  mine : mine i e = mine i d
  info : info client e = info client d
  waits : i ∈ d.waiting → i ∈ e.waiting ∧ staged client e = staged client d

def Allocated (d : Spi) : Prop := ∀ f a, d.files.holder f = some a → d.files.allocated f = true

def Guards (client i : Addr) (d e : Spi) : Prop :=
  (∀ j, j ≠ i → Untouched client j d e) ∧ (Allocated d → Allocated e)

/-- The heap has a block for a `FILE`, and a slot is free. -/
def CanOpen (d : Files) : Prop :=
  (∃ a ∈ d.heapNext,d.allocated a = false) ∧ ∃ j ∈ slots,d.stdio.iob j = none

instance {d : Files} : Decidable (CanOpen d) :=
  decidable_of_iff (d.heapNext.any (fun a => !d.allocated a) = true ∧ slots.any (d.stdio.iob · = none) = true)
    (by simp [CanOpen,Option.any_eq_true])

/-- A call finds a socket, and it opens a socket, stages its bytes and closes the socket
only when no other call waits for the lock. -/
def Admitted (i : Addr) (pc : Nat) (d : Spi) : Prop :=
  (pc = 1 → CanOpen d.files) ∧ (pc = 1 ∨ pc = 4 ∨ pc = 17 → ∀ t ∈ d.waiting,t = i)

instance {pc : Nat} : Decidable (Admitted i pc d) :=
  decidable_of_iff ((pc = 1 → CanOpen d.files) ∧ (pc = 1 ∨ pc = 4 ∨ pc = 17 → d.waiting.all (· = i) = true))
    (by simp [Admitted])

/-- The call has put its own bytes on the bus once, and returns what the bus shifted in. -/
def Done (client i : Addr) (k : Request) (entry d : Spi) (v : Int) : Prop :=
  ∃ received, received.length = 4 ∧
    mine i d = ⟨i,info client entry,k.sequence,received⟩::mine i entry ∧
      v = match k with
        | .spiram_write_byte _ _ => 0
        | .spiram_read_byte _ => (received.getD 3 0 : Int)

theorem Untouched.refl (d : Spi) : Untouched client i d d :=
  ⟨fun _ _ => id,rfl,rfl,rfl,fun inside => ⟨inside,rfl⟩⟩

theorem Untouched.trans {c : Spi} (first : Untouched client i c d) (second : Untouched client i d e) :
    Untouched client i c e := by
  refine ⟨fun fd f live => second.live fd f (first.live fd f live),second.ram.trans first.ram,
    second.mine.trans first.mine,second.info.trans first.info,fun inside => ?_⟩
  obtain ⟨still,same⟩ := first.waits inside
  obtain ⟨last,again⟩ := second.waits still
  exact ⟨last,again.trans same⟩

/-- The heap chooses the next block. -/
def Chooses (d e : Spi) : Prop := ∃ a, e = d.setFiles {d.files with heapNext := a}

theorem Chooses.untouched (client i : Addr) (chooses : Chooses d e) : Untouched client i d e := by
  obtain ⟨a,rfl⟩ := chooses
  exact ⟨fun _ _ live => ⟨live.user,live.slot,live.held,live.flags,live.close⟩,rfl,rfl,rfl,
    fun inside => ⟨inside,rfl⟩⟩

def spiTerms (client i : Addr) (k : Request) (entry : Spi) : Terms Spi Op Int Int where
  env := Chooses
  rely _ := Untouched client i
  admits := Admitted i
  returns pc r := pc = 9 → r = 0
  asks op := (∃ q tmo, op = .bermudaEventWait q tmo) ∨ ∃ q, op = .bermudaEventSignal q
  guar _ := Guards client i
  post := Done client i k entry
  crash := False
  env_refl d := ⟨d.files.heapNext,rfl⟩
  env_trans := by
    rintro _ _ _ ⟨_,rfl⟩ ⟨b,rfl⟩
    exact ⟨b,rfl⟩
  env_rely _ := Chooses.untouched client i
  rely_trans _ := Untouched.trans

theorem guards_refl (d : Spi) : Guards client i d d := ⟨fun _ _ => .refl d,id⟩

theorem guards_local (files : e.files = d.files) (user : e.user = d.user)
    (ram : ∀ j, j ≠ i → e.ram j = d.ram j) (mine : ∀ j, j ≠ i → mine j e = mine j d)
    (info : info client e = info client d)
    (waits : ∀ j, j ≠ i → j ∈ d.waiting → j ∈ e.waiting ∧ staged client e = staged client d) :
    Guards client i d e := by
  refine ⟨fun j other => ⟨fun fd f live => ?_,ram j other,mine j other,info,waits j other⟩,fun all => ?_⟩
  · obtain ⟨owned,slot,held,flags,close⟩ := live
    rw [← files] at slot held flags close
    exact ⟨user ▸ owned,slot,held,flags,close⟩
  · unfold Allocated
    rwa [files]

theorem guards_files {files : Files} (live : ∀ j, j ≠ i → ∀ fd f, Live client d fd f j →
      Live client (d.setFiles files) fd f j)
    (stream : files.stream client = d.files.stream client ∨ ∀ t ∈ d.waiting,t = i)
    (all : Allocated d → Allocated (d.setFiles files)) : Guards client i d (d.setFiles files) := by
  refine ⟨fun j other => ⟨live j other,rfl,rfl,rfl,fun inside => ⟨inside,?_⟩⟩,all⟩
  rcases stream with same | alone
  · exact Prod.ext same rfl
  · exact absurd (alone j inside) other

theorem touch_guards : Guards client i d (d.setFiles (touch fd f d.files)) := by
  refine guards_files (fun j other s g live => ?_) (.inl rfl) fun all => all
  obtain ⟨user,slot,held,flags,close⟩ := live
  refine ⟨user,slot,held,?_,?_⟩
  · by_cases same : g = f
    · subst same
      simpa [Spi.setFiles,touch,Stdio.setFd,Stdio.update] using flags
    · simpa [Spi.setFiles,touch,Stdio.setFd,Stdio.update,same] using flags
  · by_cases same : g = f
    · subst same
      simpa [Spi.setFiles,touch,Stdio.setFd,Stdio.update] using close
    · simpa [Spi.setFiles,touch,Stdio.setFd,Stdio.update,same] using close

theorem drop_guards (own : d.user fd = some i) : Guards client i d (d.setFiles (drop fd d.files)) := by
  refine guards_files (fun j other s g live => ?_) (.inl rfl) fun all => all
  obtain ⟨user,slot,held,flags,close⟩ := live
  have away : s ≠ fd := by
    rintro rfl
    exact other (Option.some.inj (user.symm.trans own))
  exact ⟨user,(Function.update_of_ne away _ _).trans slot,held,flags,close⟩

theorem close_guards (own : Live client d fd f i) (alone : ∀ t ∈ d.waiting,t = i) :
    Guards client i d (d.setFiles (spidevClose f client d.files).1) := by
  refine guards_files (fun j other s g live => ?_) (.inr alone) fun all g a held => ?_
  · obtain ⟨user,slot,held,flags,close⟩ := live
    have away : g ≠ f := by
      rintro rfl
      have equal := Option.some.inj (held.symm.trans own.held)
      obtain rfl : s = fd := Fin.ext (by omega)
      exact other (Option.some.inj (user.symm.trans own.user))
    exact ⟨user,slot,(Function.update_of_ne away _ _).trans held,flags,close⟩
  · by_cases same : g = f
    · subst same
      cases (Function.update_self _ _ _).symm.trans held
    · exact (Function.update_of_ne same _ _).trans
        (all g a ((Function.update_of_ne same _ _).symm.trans held))

theorem openSocket_opens (i client : Addr) (room : CanOpen d.files) :
    ∃ fd f, d.files.allocated f = false ∧ d.files.stdio.iob fd = none ∧
      (openSocket i client (FDEV_SETUP_RW ||| SPI_MASTER) d).2 = (fd : Int) ∧
      (openSocket i client (FDEV_SETUP_RW ||| SPI_MASTER) d).1 =
        {d with
          files := {d.files with
            stdio := ((d.files.stdio.setSlot fd (some f)).setFd f fd).update f fun file =>
              {file with flags := FDEV_SETUP_RW ||| SPI_MASTER,close := some (.spidev_close client)}
            allocated := Function.update d.files.allocated f true
            heapNext := none
            stream := Function.update d.files.stream client (some f)
            holder := Function.update d.files.holder f (some (fd : Int))}
          user := Function.update d.user fd (some i)} := by
  obtain ⟨⟨f,next,fresh⟩,s,member,free⟩ := room
  have next' : d.files.heapNext = some f := next
  unfold openSocket spidevSocket bermudaHeapAlloc
  rw [next']
  dsimp only
  rw [fresh]
  rcases iobAdd_cases f {d.files with allocated := Function.update d.files.allocated f true,heapNext := none} with
    full | ⟨fd,empty,found⟩
  · exact absurd free (iobAdd_free full s member)
  · have positive : ¬(fd : Int) < 0 := by omega
    refine ⟨fd,f,fresh,empty,?_,?_⟩
    · simp [found,positive]
    · simp [found,positive,slotOf]

theorem openSocket_guards (all : Allocated d) (room : CanOpen d.files) (alone : ∀ t ∈ d.waiting,t = i) :
    Guards client i d (openSocket i client (FDEV_SETUP_RW ||| SPI_MASTER) d).1 := by
  obtain ⟨fd,f,fresh,empty,_,result⟩ := openSocket_opens i client room
  rw [result]
  refine ⟨fun j other => ⟨fun s g live => ?_,rfl,rfl,rfl,fun inside => absurd (alone j inside) other⟩,
    fun _ g a held => ?_⟩
  · obtain ⟨user,slot,held,flags,close⟩ := live
    have away : g ≠ f := by
      rintro rfl
      cases fresh.symm.trans (all g _ held)
    have apart : s ≠ fd := by
      rintro rfl
      cases empty.symm.trans slot
    refine ⟨?_,?_,?_,?_,?_⟩
    · exact (Function.update_of_ne apart _ _).trans user
    · exact (Function.update_of_ne apart _ _).trans slot
    · exact (Function.update_of_ne away _ _).trans held
    · simpa [Stdio.update,Stdio.setFd,Stdio.setSlot,away] using flags
    · simpa [Stdio.update,Stdio.setFd,Stdio.setSlot,away] using close
  · by_cases same : g = f
    · subst same
      exact Function.update_self _ _ _
    · exact (Function.update_of_ne same _ _).trans
        (all g a ((Function.update_of_ne same _ _).symm.trans held))

/-- What a call has staged before it waits for the lock. -/
structure Staged (client i : Addr) (sequence : List Nat) (d : Spi) (fd : Slot) (f : Addr) : Prop where
  live : Live client d fd f i
  ram : d.ram i = sequence
  stream : d.files.stream client = some f
  buff : (d.client client).buff = i
  length : (d.client client).length = sequence.length

theorem openSocket_live (i client : Addr) (room : CanOpen d.files) :
    ∃ (fd : Slot) (f : Addr),
      (openSocket i client (FDEV_SETUP_RW ||| SPI_MASTER) d).2 = (fd : Int) ∧
      Live client (openSocket i client (FDEV_SETUP_RW ||| SPI_MASTER) d).1 fd f i ∧
      (openSocket i client (FDEV_SETUP_RW ||| SPI_MASTER) d).1.files.stream client = some f ∧
      (openSocket i client (FDEV_SETUP_RW ||| SPI_MASTER) d).1.ram = d.ram ∧
      (openSocket i client (FDEV_SETUP_RW ||| SPI_MASTER) d).1.log = d.log ∧
      (openSocket i client (FDEV_SETUP_RW ||| SPI_MASTER) d).1.client = d.client := by
  obtain ⟨fd,f,_,_,rc,result⟩ := openSocket_opens i client room
  refine ⟨fd,f,rc,?_⟩
  rw [result]
  refine ⟨⟨Function.update_self _ _ _,Function.update_self _ _ _,Function.update_self _ _ _,?_,?_⟩,
    Function.update_self _ _ _,rfl,rfl,rfl⟩
  · simp [Stdio.update]
  · simp [Stdio.update]

theorem stage_guards {size : Nat} (alone : ∀ t ∈ d.waiting,t = i) :
    Guards client i d (spidevStage client i size d).1 := by
  unfold spidevStage
  split
  · exact guards_refl d
  · refine guards_local rfl rfl (fun _ _ => rfl) (fun _ _ => rfl) ?_ fun j other inside => ?_
    · simp [info,spiSetBuff]
    · exact absurd (alone j inside) other

theorem transfer_eq (t : SharedInfo) (whole : d.adapter.length = d.bytes.length) :
    atmegaSpiTransfer i t d =
      ({refill (incoming d d.bytes.length) d.bytes.length d with
        log := ⟨i,t,d.bytes,incoming d d.bytes.length⟩::d.log},0) := by
  unfold atmegaSpiTransfer
  rw [whole,transferLoop_eq d.bytes.length 0 d (by omega)]
  simp [refill]

theorem transfer_guards {t : SharedInfo} (own : d.adapter.buff = i) (whole : d.adapter.length = d.bytes.length) :
    Guards client i d (atmegaSpiTransfer i t d).1 := by
  rw [transfer_eq t whole]
  refine guards_local rfl rfl (fun j other => ?_) (fun j other => ?_) rfl fun j _ inside => ⟨inside,rfl⟩
  · rw [← own] at other
    exact Function.update_of_ne other _ _
  · simp [mine,other.symm]

section Calls

variable {r : Request} {entry : Spi}

theorem setFiles_same (d : Spi) : d.setFiles (id d.files) = d := rfl

theorem slot_chosen (chooses : Chooses d e) : e.files.stdio = d.files.stdio ∧ e.user = d.user := by
  obtain ⟨a,rfl⟩ := chooses
  exact ⟨rfl,rfl⟩

theorem dropped_safe {k : Int → SpiCode Int} {rc : Int} (user : d.user fd = some i)
    (slot : d.files.stdio.iob fd = some f)
    (next : ∀ e, e.ram i = d.ram i → mine i e = mine i d → (k rc).Safe (spiTerms client i r entry) 21 e) :
    (((closeSlot fd rc).on Spi.files Spi.setFiles).bind k).Safe (spiTerms client i r entry) 18 d := by
  simp only [closeSlot,Code.read,Code.write,Code.access,bind,Code.bind,Code.on]
  intro b env _
  have first := env.untouched client i
  obtain ⟨stdio,users⟩ := slot_chosen env
  refine ⟨guards_refl b,?_⟩
  dsimp only
  rw [stdio,slot,setFiles_same]
  intro c env _
  have second := env.untouched client i
  obtain ⟨_,again⟩ := slot_chosen env
  refine ⟨touch_guards,?_⟩
  intro e env _
  have third := env.untouched client i
  obtain ⟨_,last⟩ := slot_chosen env
  refine ⟨drop_guards ?_,?_⟩
  · rw [last]
    exact (congrFun again fd).trans ((congrFun users fd).trans user)
  · refine next _ ?_ ?_
    · exact third.ram.trans (second.ram.trans first.ram)
    · exact third.mine.trans (second.mine.trans first.mine)

/-- `close` finds the socket of the call as it was opened. -/
theorem closed_safe {k : Int → SpiCode Int} (live : Live client d fd f i)
    (next : ∀ e, e.ram i = d.ram i → mine i e = mine i d → (k 0).Safe (spiTerms client i r entry) 21 e) :
    ((close fd).bind k).Safe (spiTerms client i r entry) 15 d := by
  simp only [close,Sockets.close,Code.read,Code.access,bind,Code.bind,Code.on]
  intro c env _
  have first := env.untouched client i
  replace live := first.live _ _ live
  refine ⟨guards_refl c,?_⟩
  dsimp only
  rw [live.slot,setFiles_same]
  intro e env _
  have second := env.untouched client i
  replace live := second.live _ _ live
  refine ⟨guards_refl e,?_⟩
  dsimp only
  rw [live.close,setFiles_same]
  intro g env alone
  have third := env.untouched client i
  replace live := third.live _ _ live
  refine ⟨close_guards live (alone.2 (.inr (.inr rfl))),?_⟩
  refine dropped_safe (f := f) live.user live.slot fun h ram log => ?_
  refine next h (ram.trans ?_) (log.trans ?_)
  · exact third.ram.trans (second.ram.trans first.ram)
  · exact third.mine.trans (second.mine.trans first.mine)

theorem staged_later {sequence : List Nat} (ready : Staged client i sequence d fd f) (chooses : Chooses d e) :
    Staged client i sequence e fd f := by
  obtain ⟨live,ram,stream,buff,length⟩ := ready
  have same := chooses.untouched client i
  obtain ⟨a,rfl⟩ := chooses
  exact ⟨same.live _ _ live,ram,stream,buff,length⟩

theorem flags_master : decide ((FDEV_SETUP_RW ||| SPI_MASTER) &&& SPI_MASTER ≠ 0) = true := by decide

/-- With the lock, a call transfers what it has staged. -/
theorem locked_safe {k : Int → SpiCode Int} {sequence : List Nat} (ready : Staged client i sequence d fd f)
    (next : ∀ e received, Live client e fd f i → received.length = sequence.length → e.ram i = received →
      mine i e = ⟨i,info client d,sequence,received⟩::mine i d →
        (k 0).Safe (spiTerms client i r entry) 15 e) :
    ((flushLocked mutex i client).bind k).Safe (spiTerms client i r entry) 11 d := by
  simp only [flushLocked,spiUnlockAdapter,isMaster,Code.read,Code.exec,Code.access,Code.ask,bind,Code.bind,pure]
  intro a env _
  have first := env.untouched client i
  replace ready := staged_later ready env
  refine ⟨guards_local rfl rfl (fun _ _ => rfl) (fun _ _ => rfl) rfl fun j _ inside => ⟨inside,rfl⟩,?_⟩
  rintro _ ⟨x,rfl⟩ -
  obtain ⟨live,ram,stream,buff,length⟩ := ready
  generalize holds : (handOut client a).1.setFiles {(handOut client a).1.files with heapNext := x} = b
  have bytes : b.bytes = sequence := by
    rw [← holds,← ram,← buff]
    rfl
  have whole : b.adapter.length = b.bytes.length := by
    rw [bytes,← length,← holds]
    rfl
  have own : b.adapter.buff = i := by
    rw [← buff,← holds]
    rfl
  have open_ : Live client b fd f i := by
    rw [← holds]
    exact ⟨live.user,live.slot,live.held,live.flags,live.close⟩
  have streams : b.files.stream client = some f := by
    rw [← holds]
    exact stream
  have logs : b.log = a.log := by
    rw [← holds]
    rfl
  refine ⟨transfer_guards own whole,?_⟩
  dsimp only
  rw [transfer_eq _ whole,bytes]
  rintro _ ⟨y,rfl⟩ -
  refine ⟨guards_refl _,?_⟩
  simp only [id_eq,Spi.setFiles,refill,streams,Option.map_some,open_.flags,flags_master,Code.bind,if_true]
  refine ⟨.inr ⟨_,rfl⟩,fun e rc others _ => ?_⟩
  refine next e (incoming b sequence.length) (others.live _ _ ?_) (by simp [incoming]) ?_ ?_
  · exact ⟨open_.user,open_.slot,open_.held,open_.flags,open_.close⟩
  · refine others.ram.trans ?_
    rw [← own]
    exact Function.update_self _ _ _
  · refine others.mine.trans ?_
    have infos : info client a = info client d := first.info
    have before : mine i a = mine i d := first.mine
    unfold mine at before ⊢
    rw [← infos,← before,← logs]
    simp [handOut,info]

theorem flushed_safe {k : Int → SpiCode Int} {sequence : List Nat} (ready : Staged client i sequence d fd f)
    (next : ∀ e received, Live client e fd f i → received.length = sequence.length → e.ram i = received →
      mine i e = ⟨i,info client d,sequence,received⟩::mine i d →
        (k 0).Safe (spiTerms client i r entry) 15 e) :
    ((flush mutex i fd).bind k).Safe (spiTerms client i r entry) 5 d := by
  simp only [flush,spiFlushClient,spiLockAdapter,isMaster,Code.read,Code.write,Code.access,Code.ask,bind,
    Code.bind]
  intro a env _
  have first := env.untouched client i
  replace ready := staged_later ready env
  refine ⟨guards_refl a,?_⟩
  dsimp only
  rw [ready.live.slot]
  intro b env _
  have second := env.untouched client i
  replace ready := staged_later ready env
  refine ⟨guards_refl b,?_⟩
  dsimp only
  simp only [id_eq,ready.live.close]
  intro c env _
  have third := env.untouched client i
  replace ready := staged_later ready env
  refine ⟨guards_refl c,?_⟩
  dsimp only
  simp only [id_eq,ready.stream,Option.map_some,ready.live.flags,flags_master,pure,Code.bind,if_true]
  -- from here on the others must leave what is staged alone
  intro d1 env _
  have fourth := env.untouched client i
  replace ready := staged_later ready env
  refine ⟨guards_local rfl rfl (fun _ _ => rfl) (fun _ _ => rfl) rfl fun j _ inside =>
    ⟨List.mem_cons_of_mem _ inside,rfl⟩,.inl ⟨_,_,rfl⟩,fun d2 rc others granted => ?_⟩
  obtain rfl := granted rfl
  obtain ⟨live,ram,stream,buff,length⟩ := ready
  obtain ⟨_,same⟩ := others.waits List.mem_cons_self
  have own : d2.client client = d1.client client := congrArg Prod.snd same
  replace ready : Staged client i sequence d2 fd f := by
    refine ⟨others.live _ _ ⟨live.user,live.slot,live.held,live.flags,live.close⟩,others.ram.trans ram,
      (congrArg Prod.fst same).trans stream,?_,?_⟩
    · rw [own]
      exact buff
    · rw [own]
      exact length
  intro e env _
  have last := env.untouched client i
  replace ready := staged_later ready env
  refine ⟨guards_local rfl rfl (fun _ _ => rfl) (fun _ _ => rfl) rfl fun j other inside =>
    ⟨List.mem_filter.mpr ⟨inside,by simpa using other⟩,rfl⟩,?_⟩
  obtain ⟨live,ram,stream,buff,length⟩ := ready
  refine locked_safe ⟨⟨live.user,live.slot,live.held,live.flags,live.close⟩,ram,stream,buff,length⟩ ?_
  intro h received live size ram log
  refine next h received live size ram (log.trans ?_)
  have infos : info client (leave i e) = info client d :=
    last.info.trans (others.info.trans (fourth.info.trans (third.info.trans (second.info.trans first.info))))
  have logs : mine i (leave i e) = mine i d :=
    last.mine.trans (others.mine.trans (fourth.mine.trans (third.mine.trans (second.mine.trans first.mine))))
  rw [infos,logs]

theorem stage_ready {sequence : List Nat} (live : Live client d fd f i) (ram : d.ram i = sequence)
    (stream : d.files.stream client = some f) (some : sequence.length ≠ 0) :
    (spidevStage client i sequence.length d).2 = 0 ∧
      Staged client i sequence (spidevStage client i sequence.length d).1 fd f ∧
      mine i (spidevStage client i sequence.length d).1 = mine i d ∧
      info client (spidevStage client i sequence.length d).1 = info client d := by
  unfold spidevStage
  rw [if_neg some]
  refine ⟨rfl,⟨⟨live.user,live.slot,live.held,live.flags,live.close⟩,ram,stream,?_,?_⟩,rfl,?_⟩
  · simp [spiSetBuff]
  · simp [spiSetBuff]
  · simp [info,spiSetBuff]

theorem staged_safe {k : Int → SpiCode Int} {sequence : List Nat} (live : Live client d fd f i)
    (ram : d.ram i = sequence) (stream : d.files.stream client = some f) (some : sequence.length ≠ 0)
    (next : ∀ e, Staged client i sequence e fd f → mine i e = mine i d → info client e = info client d →
      (k 0).Safe (spiTerms client i r entry) 5 e) :
    (k (spidevStage client i sequence.length d).2).Safe (spiTerms client i r entry) 5
      (spidevStage client i sequence.length d).1 := by
  obtain ⟨zero,ready,log,infos⟩ := stage_ready live ram stream some
  rw [zero]
  exact next _ ready log infos

theorem written_safe {k : Int → SpiCode Int} (sequence : List Nat) (live : Live client d fd f i)
    (ram : d.ram i = sequence) (stream : d.files.stream client = some f) (some : sequence.length ≠ 0)
    (next : ∀ e, Staged client i sequence e fd f → mine i e = mine i d → info client e = info client d →
      (k 0).Safe (spiTerms client i r entry) 5 e) :
    ((write fd i sequence.length).bind k).Safe (spiTerms client i r entry) 2 d := by
  have writable : ¬(FDEV_SETUP_RW ||| SPI_MASTER) &&& SWR = 0 := by decide
  simp only [write,Code.read,Code.exec,Code.access,bind,Code.bind]
  rintro _ ⟨x,rfl⟩ -
  refine ⟨guards_refl _,?_⟩
  simp only [id_eq,Spi.setFiles,live.slot]
  rintro _ ⟨y,rfl⟩ -
  refine ⟨guards_refl _,?_⟩
  simp only [id_eq,Spi.setFiles,live.flags,live.close,if_neg writable]
  rintro e ⟨z,chosen⟩ alone
  refine ⟨stage_guards (alone.2 (.inr (.inl rfl))),?_⟩
  simp only [chosen,Code.bind]
  exact staged_safe ⟨live.user,live.slot,live.held,live.flags,live.close⟩ ram stream some next

theorem read_safe {k : Int → SpiCode Int} (sequence : List Nat) (live : Live client d fd f i)
    (ram : d.ram i = sequence) (stream : d.files.stream client = some f) (some : sequence.length ≠ 0)
    (next : ∀ e, Staged client i sequence e fd f → mine i e = mine i d → info client e = info client d →
      (k 0).Safe (spiTerms client i r entry) 5 e) :
    ((read fd i sequence.length).bind k).Safe (spiTerms client i r entry) 2 d := by
  simp only [read,Code.read,Code.exec,Code.access,bind,Code.bind]
  rintro _ ⟨x,rfl⟩ -
  refine ⟨guards_refl _,?_⟩
  simp only [id_eq,Spi.setFiles,live.slot]
  rintro _ ⟨y,rfl⟩ -
  refine ⟨guards_refl _,?_⟩
  simp only [id_eq,Spi.setFiles,live.close]
  rintro e ⟨z,chosen⟩ alone
  refine ⟨stage_guards (alone.2 (.inr (.inl rfl))),?_⟩
  simp only [chosen,Code.bind]
  exact staged_safe ⟨live.user,live.slot,live.held,live.flags,live.close⟩ ram stream some next

theorem opened_safe {k : Int → SpiCode Int} {sequence : List Nat} (all : Allocated d)
    (next : ∀ (e : Spi) (fd : Slot) f, Live client e fd f i → e.ram i = sequence → e.files.stream client = some f →
      mine i e = mine i d → info client e = info client d → (k fd).Safe (spiTerms client i r entry) 2 e) :
    ((Code.write (setRam i sequence)).bind fun _ =>
      (Code.exec (openSocket i client (FDEV_SETUP_RW ||| SPI_MASTER))).bind k).Safe
        (spiTerms client i r entry) 0 d := by
  simp only [Code.write,Code.exec,Code.access,Code.bind]
  rintro _ ⟨x,rfl⟩ -
  refine ⟨guards_local rfl rfl (fun j other => Function.update_of_ne other _ _) (fun _ _ => rfl) rfl
    fun j _ inside => ⟨inside,rfl⟩,?_⟩
  rintro e ⟨y,chosen⟩ ⟨room,alone⟩
  have allocated : Allocated e := by
    rw [chosen]
    exact all
  have opens := room rfl
  refine ⟨openSocket_guards allocated opens (alone (.inl rfl)),?_⟩
  obtain ⟨fd,f,rc,live,stream,ram,log,clients⟩ := openSocket_live i client opens
  simp only [rc]
  refine next _ fd f live ?_ stream ?_ ?_
  · rw [ram,chosen]
    exact Function.update_self _ _ _
  · unfold mine
    rw [log,chosen]
    rfl
  · unfold info
    rw [clients,chosen]
    rfl

theorem slotOf_slot (fd : Slot) : slotOf (fd : Int) = fd := by simp [slotOf]

theorem spiramWriteByte_safe {address byte : Nat} (all : Allocated d) :
    (spiramWriteByte mutex client i address byte).Safe
      (spiTerms client i (.spiram_write_byte address byte) d) 0 d := by
  refine opened_safe all fun a fd f live ram stream opened infos => ?_
  have positive : (0 : Int) ≤ fd := by omega
  rw [if_pos positive,slotOf_slot]
  refine written_safe [WRDA,(address >>> 8) &&& 0xFF,address &&& 0xFF,byte] live ram stream (by simp) fun b ready written same => ?_
  refine flushed_safe ready fun c received live size ram flushed => ?_
  refine closed_safe live fun e _ closed => ?_
  rintro _ ⟨x,rfl⟩
  refine ⟨received,size,closed.trans (flushed.trans ?_),rfl⟩
  rw [same,infos,written,opened]
  rfl

theorem spiramReadByte_safe {address : Nat} (all : Allocated d) :
    (spiramReadByte mutex client i address).Safe (spiTerms client i (.spiram_read_byte address) d) 0 d := by
  refine opened_safe all fun a fd f live ram stream opened infos => ?_
  have positive : (0 : Int) ≤ fd := by omega
  rw [if_pos positive,slotOf_slot]
  refine read_safe [RDDA,(address >>> 8) &&& 0xFF,address &&& 0xFF,0xFF] live ram stream (by simp) fun b ready written same => ?_
  refine flushed_safe ready fun c received live size ram flushed => ?_
  refine closed_safe live fun e kept closed => ?_
  rintro _ ⟨x,rfl⟩ -
  refine ⟨guards_refl _,?_⟩
  rintro _ ⟨y,rfl⟩
  refine ⟨received,size,closed.trans (flushed.trans ?_),?_⟩
  · rw [same,infos,written,opened]
    rfl
  · change (((e.ram i).getD 3 0 : Nat) : Int) = _
    rw [kept,ram]

end Calls

abbrev SpiMachine := Machine Kernel Addr Op Int Spi Request Int

abbrev SpiRuns (idle mutex client : Addr) (may : SpiMachine → SpiMachine → Prop) : SpiMachine → Prop :=
  Runs (scheduler (socketUsage idle)) (drivers (socketUsage idle) mutex client) may
    (Started (socketUsage idle) fun d => NoFiles d.files)

/-- Every step of a call is admitted, and its wait for the lock does not end by the
time-out. -/
def Undisturbed (m n : SpiMachine) : Prop :=
  ∀ j ∈ m.job m.running,∀ l ∈ n.job m.running,l.pc = j.pc + 1 →
    Admitted m.running j.pc m.dev ∧ (j.pc = 9 → ∀ x ∈ returning m.kernel,x.2 = 0)

instance : DecidableRel Undisturbed := fun m n =>
  inferInstanceAs (Decidable (∀ j ∈ m.job m.running,∀ l ∈ n.job m.running,_ → _ ∧ (_ → ∀ x ∈ returning m.kernel,_)))

/-- Every call that returns has put its own bytes on the bus once, and none has
dereferenced a null pointer. -/
structure Separate (client : Addr) (m : SpiMachine) : Prop where
  done : ∀ i, ∀ j ∈ m.job i,∀ v, j.rest = .ret v → Done client i j.op j.entry m.dev v
  alive : ∀ i, ∀ j ∈ m.job i,j.rest ≠ .fault

section Runs

variable {idle : Addr} {m : SpiMachine}

theorem spi_compatible : Compatible (drivers (socketUsage idle) mutex client) Undisturbed (spiTerms client)
    Allocated where
  irq s t d e irq all := by
    cases irq with
    | kernel => exact ⟨all,fun _ _ _ => ⟨d.files.heapNext,rfl⟩⟩
    | device cut =>
      cases cut with
      | next a => exact ⟨all,fun _ _ _ => ⟨a,rfl⟩⟩
  body i k d _ all := by
    cases k with
    | spiram_write_byte => exact spiramWriteByte_safe all
    | spiram_read_byte => exact spiramReadByte_safe all
  admits m n j update next quiet job _ after := (quiet j job _ after rfl).1
  returns m n j op next below r quiet job _ returns after late := (quiet j job _ after rfl).2 late _ returns
  keeps _ _ _ _ _ _ guards := guards.2
  others _ _ i _ _ _ _ _ other _ _ guards := guards.1 i other

/-- Where no call disturbs another that waits for the lock, the calls do not mix. -/
theorem transfers_separate (run : SpiRuns idle mutex client Undisturbed m) : Separate client m := by
  have start (m : SpiMachine) (started : Started (socketUsage idle) (fun d => NoFiles d.files) m) :
      AllSafe (drivers (socketUsage idle) mutex client) (spiTerms client) Allocated m := by
    obtain ⟨_,⟨_,holder,_⟩,jobs⟩ := started
    refine ⟨fun f a held => ?_,fun i j job => ?_,fun i _ present => ?_,fun i j job => ?_⟩
    · cases (holder f).symm.trans held
    · cases (jobs i).symm.trans job
    · rw [jobs i] at present
      cases present
    · cases (jobs i).symm.trans job
  obtain ⟨_,_,all⟩ := drivers_keep (fun _ _ => Interrupt.below) start
    (fun m op _ all ask => by
      obtain ⟨_,real,⟨q,tmo,rfl⟩ | ⟨q,rfl⟩⟩ := all.asks ask
      · exact real
      · exact False.elim)
    (fun m n _ _ matching all step quiet => safe_step spi_compatible matching all step quiet) run
  refine ⟨fun i j job v rest => ?_,fun i j job rest => ?_⟩
  · have safe := all.safe i j job
    rw [rest] at safe
    exact safe _ ((spiTerms client i j.op j.entry).env_refl _)
  · have safe := all.safe i j job
    rw [rest] at safe
    exact safe

end Runs

section Script

variable {u : Usage} {k : Request}

instance : DecidablePred (drivers u mutex client).free := fun _ => isTrue trivial

instance : Decidable ((drivers u mutex client).begins i k) := inferInstanceAs (Decidable (_ ≠ _))

/-- The interrupts of a script: those of the kernel, and the choice of the next block. -/
def happen (u : Usage) [∀ q k, Decidable (u.raised q k)] :
    Cut ⊕ Option Addr → Kernel × Spi → Option (Kernel × Spi)
  | .inl cut,s => cut.happen u s
  | .inr a,s => some (s.1,s.2.setFiles {s.2.files with heapNext := a})

theorem happen_interrupt [∀ q k, Decidable (u.raised q k)] (x : Cut ⊕ Option Addr) (s t : Kernel × Spi)
    (happens : happen u x s = some t) : Interrupt u Heap s t := by
  cases x with
  | inl cut => exact Cut.interrupt cut s t happens
  | inr a =>
    obtain rfl := Option.some.inj happens
    exact .device (.next a) (.inl rfl)

end Script

def startMachine : SpiMachine :=
  ⟨bootConfig (socketUsage 0x100) [0x40] 0x500,
    ⟨⟨⟨fun _ => ⟨none,[],0,0,none⟩,fun _ => none,none⟩,fun _ => false,some 0x600,fun _ => 0,fun _ => none,
      fun _ => none,fun _ => none,[]⟩,fun _ => ⟨0,0,0,0,0⟩,⟨0,0⟩,fun _ => [],id,0,fun _ => none,[],[]⟩,
    fun _ => none⟩

theorem startMachine_runs (may : SpiMachine → SpiMachine → Prop) :
    SpiRuns 0x100 0x40 0x50 may startMachine :=
  .init ⟨bootConfig_booted (by decide) fun q => by simp [socketUsage],⟨fun _ => rfl,fun _ => rfl,rfl⟩,
    fun _ => rfl⟩

/-- MAIN writes a byte. -/
def oneCall : List (Event (Cut ⊕ Option Addr) Op Request) :=
  [.invoke (.bermudaThreadCreate 0x200 ['M','A','I','N'] 150),.run 40,.invoke .bermudaThreadYield,.run 80,
    .begin (.spiram_write_byte 0x1234 7),.run 100]

theorem transfers_separate_one : ∃ m : SpiMachine, Separate 0x50 m ∧
    (mine 0x200 m.dev).map (·.sent) = [[2,0x12,0x34,7]] := by
  obtain ⟨m,run,sent⟩ := script_ends oneCall
    (P := fun m => (mine 0x200 m.dev).map (·.sent) = [[2,0x12,0x34,7]])
    (startMachine_runs Undisturbed) happen_interrupt (by decide +kernel)
  exact ⟨m,transfers_separate run,sent⟩

/-- A wakes up while MAIN has just taken the lock, and calls as well. -/
def twoCalls : List (Event (Cut ⊕ Option Addr) Op Request) :=
  [.invoke (.bermudaThreadCreate 0x200 ['M','A','I','N'] 150),.run 40,.invoke .bermudaThreadYield,.run 80,
    .invoke (.bermudaThreadCreate 0x300 ['A'] 100),.run 40,.invoke .bermudaThreadYield,.run 80,
    .invoke (.bermudaThreadSleep 1),.run 100,.begin (.spiram_write_byte 0x1234 7),.run 2,
    .interrupt (.inr (some 0x700)),.run 8,.interrupt (.inl .tick),.interrupt (.inl .tick),.run 100,
    .begin (.spiram_write_byte 0x4321 9),.run 210,.invoke (.bermudaThreadSleep 10),.run 34]

/-- The call of MAIN puts the bytes of A on the bus, and returns success. -/
theorem transfers_mixed : ∃ m : SpiMachine, SpiRuns 0x100 0x40 0x50 (fun _ _ => True) m ∧ ¬Separate 0x50 m ∧
    (m.job 0x200).map (·.op) = some (.spiram_write_byte 0x1234 7) ∧
    (mine 0x200 m.dev).map (·.sent) = [[2,0x43,0x21,9]] := by
  obtain ⟨m,run,⟨j,job,returned⟩,op,sent⟩ := script_ends twoCalls
    (P := fun m : SpiMachine => (∃ j ∈ m.job 0x200,j.rest.result = some 0) ∧
      (m.job 0x200).map (·.op) = some (.spiram_write_byte 0x1234 7) ∧
      (mine 0x200 m.dev).map (·.sent) = [[2,0x43,0x21,9]])
    (startMachine_runs fun _ _ => True) happen_interrupt (by decide +kernel)
  refine ⟨m,run,fun separate => ?_,op,sent⟩
  obtain ⟨received,_,own,_⟩ := separate.done _ j job 0 (Code.result_some returned)
  have called : j.op = .spiram_write_byte 0x1234 7 := by
    rw [show m.job 0x200 = some j from job] at op
    exact Option.some.inj op
  rw [own,called,List.map_cons,List.cons.injEq] at sent
  simp [Request.sequence,WRDA] at sent

end BermudaOS.Dev.SpiRam
