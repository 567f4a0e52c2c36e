import BermudaOS.Lib.Chains
import BermudaOS.Sys.VirtTimer

/-! The table of open files, `__iob`, and the list of the files that can be opened,
with the functions of `fs/vfs.c` and `lib/c/stdio` that use them. The first three
slots belong to the standard streams. -/
namespace BermudaOS.Fs
open Sys.VirtTimer

abbrev maxOpen : Nat := 16

instance maxOpen_neZero : NeZero maxOpen := ⟨by decide⟩

abbrev Slot := Fin maxOpen

/-- A `FILE`. `Handler` names the functions that close a stream. -/
structure File (Handler : Type) where
  next : Option Addr
  name : List Char
  flags : Nat
  fd : Int
  close : Option Handler

structure Stdio (Handler : Type) where
  file : Addr → File Handler
  iob : Slot → Option Addr
  vfsHead : Option Addr

/-- The slots that the loops over `__iob` go through, in their order. -/
def slots : List Slot := (List.finRange maxOpen).drop 3

variable {Handler : Type}

namespace Stdio

def next (s : Stdio Handler) (f : Addr) : Option Addr := (s.file f).next

def name (s : Stdio Handler) (f : Addr) : List Char := (s.file f).name

def update (s : Stdio Handler) (f : Addr) (g : File Handler → File Handler) : Stdio Handler :=
  {s with file := Function.update s.file f (g (s.file f))}

def setFd (s : Stdio Handler) (f : Addr) (fd : Int) : Stdio Handler :=
  s.update f fun x => {x with fd := fd}

def setFlags (s : Stdio Handler) (f : Addr) (flags : Nat) : Stdio Handler :=
  s.update f fun x => {x with flags := flags}

def setSlot (s : Stdio Handler) (i : Slot) (p : Option Addr) : Stdio Handler :=
  {s with iob := Function.update s.iob i p}

end Stdio

/-- No file is open and none can be opened. -/
def vfsInit (file : Addr → File Handler) : Stdio Handler := ⟨file,fun _ => none,none⟩

def vfsAdd (f : Addr) (s : Stdio Handler) : Stdio Handler :=
  {s.update f fun x => {x with next := s.vfsHead} with vfsHead := some f}

def mode (fd : Slot) (fmode : Nat) (s : Stdio Handler) : Stdio Handler × Int :=
  match s.iob fd with
  | some stream => (s.setFlags stream fmode,0)
  | none => (s,-1)

/-- The inner loop of `open`, for a file `c` of that name: the first slot that is free
or holds a file of the name. -/
def openScan (fname : List Char) (fmode : Nat) (c : Addr) (s : Stdio Handler) :
    List Slot → Option (Stdio Handler × Slot)
  | [] => none
  | i::rest =>
    match s.iob i with
    | none => some ((mode i fmode ((s.setSlot i (some c)).setFd c i)).1,i)
    | some f =>
      if s.name f = fname then some ((mode i fmode s).1,i) else openScan fname fmode c s rest

/-- The outer loop of `open`. -/
def openWalk (fname : List Char) (fmode : Nat) (s : Stdio Handler) :
    Nat → Option Addr → Option (Stdio Handler × Int)
  | _,none => some (s,-1)
  | 0,some _ => none
  | fuel+1,some c =>
    if s.name c = fname then
      match openScan fname fmode c s slots with
      | some (t,i) => some (t,i)
      | none => openWalk fname fmode s fuel (s.next c)
    else openWalk fname fmode s fuel (s.next c)

/-- `open`. -/
def openFile (fname : List Char) (fmode : Nat) (s : Stdio Handler) : Option (Stdio Handler × Int) :=
  openWalk fname fmode s addrLimit s.vfsHead

def addScan (stream : Addr) (s : Stdio Handler) : List Slot → Stdio Handler × Int
  | [] => (s,-1)
  | rc::rest =>
    match s.iob rc with
    | none => ((s.setSlot rc (some stream)).setFd stream rc,rc)
    | some _ => addScan stream s rest

def iobAdd (stream : Addr) (s : Stdio Handler) : Stdio Handler × Int := addScan stream s slots

/-- `close`, where `result` is what the handlers return: they leave the table alone. -/
def close (result : Handler → Addr → Int) (fd : Slot) (s : Stdio Handler) : Stdio Handler × Int :=
  match s.iob fd with
  | none => (s,-1)
  | some stream =>
    let rc := match (s.file stream).close with
      | some handler => result handler stream
      | none => 0
    ((s.setFd stream (-1)).setSlot fd none,rc)

end BermudaOS.Fs
