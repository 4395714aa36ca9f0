import Modeld.Host.Fs
import Modeld.Host.Program

/-!
# The calls of a program on a file system

`Call` lists the operations of `Fs` as calls of a `Program`, `exec` answers them, and `Fault` says
how a call may fail instead: most failures change nothing, but a write may stop after any part of
its bytes, and a copy may stop after it has truncated its destination.
-/

namespace Host

/-- The calls. -/
inductive Call
  | isFile (p : Path)
  | isDir (p : Path)
  | pathExists (p : Path)
  | canonicalize (p : Path)
  | metadata (p : Path)
  | readDir (p : Path)
  | openFile (p : Path)
  | read (i : Ino)
  | create (p : Path)
  | writeAt (i : Ino) (off : Nat) (b : Bytes)
  | write (p : Path) (b : Bytes)
  | rename (a b : Path)
  | removeFile (p : Path)
  | hardLink (a b : Path)
  | copy (a b : Path)
  | symlink (target p : Path)
  | createDirAll (p : Path)
  | fetchAdd (cell : Nat)

/-- What each call replies. -/
@[reducible] def Reply : Call → Type
  | .isFile _ | .isDir _ | .pathExists _ => Bool
  | .canonicalize _ => Except IoError Path
  | .metadata _ => Except IoError Metadata
  | .readDir _ => Except IoError (List DirEntry)
  | .openFile _ | .create _ => Except IoError Ino
  | .read _ => Except IoError Bytes
  | .writeAt .. | .write .. | .rename .. | .removeFile _ | .hardLink .. | .copy .. | .symlink ..
  | .createDirAll _ => Except IoError Unit
  | .fetchAdd _ => Nat

/-- A program on the file system. -/
abbrev Io (α : Type) := Program Reply α

namespace Fs

/-- The answer of a file system on which no call fails for reasons of its own. -/
def exec : (o : Call) → Fs → Reply o × Fs
  | .isFile p, h => (h.isFile p, h)
  | .isDir p, h => (h.isDir p, h)
  | .pathExists p, h => (h.pathExists p, h)
  | .canonicalize p, h => (h.canonicalize p, h)
  | .metadata p, h => (h.metadata p, h)
  | .readDir p, h => (h.readDir p, h)
  | .openFile p, h => (h.openFile p, h)
  | .read i, h => (.ok (h.data i), h)
  | .create p, h => h.create p
  | .writeAt i off b, h => (.ok (), h.writeAt i off b)
  | .write p b, h => h.write p b
  | .rename a b, h => h.rename a b
  | .removeFile p, h => h.removeFile p
  | .hardLink a b, h => h.hardLink a b
  | .copy a b, h => h.copy a b
  | .symlink t p, h => h.symlink t p
  | .createDirAll p, h => h.createDirAll p
  | .fetchAdd c, h => h.fetchAdd c

/-- The file system that answers every call by `exec`. -/
abbrev reliable : Program.System Reply Fs := Program.reliable exec

/-- A call that fails for reasons of the file system's own: the reply, and what it left behind.
`is_file` and `exists` report such a failure as `false`. -/
inductive Fault : (o : Call) → Fs → Reply o → Fs → Prop
  | isFile (h : Fs) (p : Path) : Fault (.isFile p) h false h
  | isDir (h : Fs) (p : Path) : Fault (.isDir p) h false h
  | pathExists (h : Fs) (p : Path) : Fault (.pathExists p) h false h
  | canonicalize (h : Fs) (p : Path) (e : IoError) : Fault (.canonicalize p) h (.error e) h
  | metadata (h : Fs) (p : Path) (e : IoError) : Fault (.metadata p) h (.error e) h
  | readDir (h : Fs) (p : Path) (e : IoError) : Fault (.readDir p) h (.error e) h
  | openFile (h : Fs) (p : Path) (e : IoError) : Fault (.openFile p) h (.error e) h
  | read (h : Fs) (i : Ino) (e : IoError) : Fault (.read i) h (.error e) h
  | create (h : Fs) (p : Path) (e : IoError) : Fault (.create p) h (.error e) h
  | writeAt (h : Fs) (i : Ino) (off : Nat) (b : Bytes) (n : Nat) (e : IoError) :
      Fault (.writeAt i off b) h (.error e) (h.writeAt i off (b.take n))
  | write (h : Fs) (p : Path) (b : Bytes) (e : IoError) : Fault (.write p b) h (.error e) h
  | writePart (h : Fs) (p : Path) (b : Bytes) (n : Nat) (e : IoError) :
      Fault (.write p b) h (.error e) (h.write p (b.take n)).2
  | rename (h : Fs) (a b : Path) (e : IoError) : Fault (.rename a b) h (.error e) h
  | removeFile (h : Fs) (p : Path) (e : IoError) : Fault (.removeFile p) h (.error e) h
  | hardLink (h : Fs) (a b : Path) (e : IoError) : Fault (.hardLink a b) h (.error e) h
  | copy (h : Fs) (a b : Path) (e : IoError) : Fault (.copy a b) h (.error e) h
  | copyPart (h h' : Fs) (a b : Path) (i j : Ino) (n : Nat) (e : IoError)
      (hsrc : h.fileAt a = some i) (hdst : h.create b = (.ok j, h')) :
      Fault (.copy a b) h (.error e) (h'.setData j ((h'.data i).take n))
  | symlink (h : Fs) (t p : Path) (e : IoError) : Fault (.symlink t p) h (.error e) h
  | createDirAll (h : Fs) (p : Path) (n : Nat) (e : IoError) :
      Fault (.createDirAll p) h (.error e) (h.createDirAll (p.take n)).2

/-- Everything that can come of a call: its answer, or a failure. -/
def Answers : Program.System Reply Fs := fun o h r h' => exec o h = (r, h') ∨ Fault o h r h'

/-- The file system together with the number of failures that may still happen. -/
def faulty : Program.System Reply (Fs × Nat) := fun o s r s' =>
  (exec o s.1 = (r, s'.1) ∧ s'.2 = s.2) ∨ (Fault o s.1 r s'.1 ∧ s.2 = s'.2 + 1)

end Fs

/-! ### The calls as programs -/

section

open Program

abbrev isFile (p : Path) : Io Bool := perform (Call.isFile p)

abbrev isDir (p : Path) : Io Bool := perform (Call.isDir p)

abbrev pathExists (p : Path) : Io Bool := perform (Call.pathExists p)

abbrev canonicalize (p : Path) : Io (Except IoError Path) :=
  perform (Call.canonicalize p)

abbrev metadata (p : Path) : Io (Except IoError Metadata) := perform (Call.metadata p)

abbrev readDir (p : Path) : Io (Except IoError (List DirEntry)) :=
  perform (Call.readDir p)

abbrev openFile (p : Path) : Io (Except IoError Ino) := perform (Call.openFile p)

abbrev read (i : Ino) : Io (Except IoError Bytes) := perform (Call.read i)

abbrev create (p : Path) : Io (Except IoError Ino) := perform (Call.create p)

abbrev writeAt (i : Ino) (off : Nat) (b : Bytes) : Io (Except IoError Unit) :=
  perform (Call.writeAt i off b)

abbrev write (p : Path) (b : Bytes) : Io (Except IoError Unit) :=
  perform (Call.write p b)

abbrev rename (a b : Path) : Io (Except IoError Unit) := perform (Call.rename a b)

abbrev removeFile (p : Path) : Io (Except IoError Unit) := perform (Call.removeFile p)

abbrev hardLink (a b : Path) : Io (Except IoError Unit) := perform (Call.hardLink a b)

abbrev copy (a b : Path) : Io (Except IoError Unit) := perform (Call.copy a b)

abbrev symlink (t p : Path) : Io (Except IoError Unit) := perform (Call.symlink t p)

abbrev createDirAll (p : Path) : Io (Except IoError Unit) :=
  perform (Call.createDirAll p)

abbrev fetchAdd (cell : Nat) : Io Nat := perform (Call.fetchAdd cell)

end

/-! ### Running a program call by call -/

namespace Fs

open Program

variable {α : Type} {h : Fs}

@[simp] theorem run_isFile (p : Path) (f : Bool → Io α) :
    (Host.isFile p >>= f).run exec h = (f (h.isFile p)).run exec h := rfl

@[simp] theorem run_isDir (p : Path) (f : Bool → Io α) :
    (Host.isDir p >>= f).run exec h = (f (h.isDir p)).run exec h := rfl

@[simp] theorem run_metadata (p : Path) (f : Except IoError Metadata → Io α) :
    (Host.metadata p >>= f).run exec h = (f (h.metadata p)).run exec h := rfl

@[simp] theorem run_readDir (p : Path) (f : Except IoError (List DirEntry) → Io α) :
    (Host.readDir p >>= f).run exec h = (f (h.readDir p)).run exec h := rfl

@[simp] theorem run_openFile (p : Path) (f : Except IoError Ino → Io α) :
    (Host.openFile p >>= f).run exec h = (f (h.openFile p)).run exec h := rfl

@[simp] theorem run_read (i : Ino) (f : Except IoError Bytes → Io α) :
    (Host.read i >>= f).run exec h = (f (.ok (h.data i))).run exec h := rfl

@[simp] theorem run_create (p : Path) (f : Except IoError Ino → Io α) :
    (Host.create p >>= f).run exec h = (f (h.create p).1).run exec (h.create p).2 := rfl

@[simp] theorem run_writeAt (i : Ino) (off : Nat) (b : Bytes) (f : Except IoError Unit → Io α) :
    (Host.writeAt i off b >>= f).run exec h = (f (.ok ())).run exec (h.writeAt i off b) := rfl

@[simp] theorem run_removeFile (p : Path) (f : Except IoError Unit → Io α) :
    (Host.removeFile p >>= f).run exec h =
      (f (h.removeFile p).1).run exec (h.removeFile p).2 := rfl

@[simp] theorem run_rename (a b : Path) (f : Except IoError Unit → Io α) :
    (Host.rename a b >>= f).run exec h = (f (h.rename a b).1).run exec (h.rename a b).2 := rfl

@[simp] theorem run_createDirAll (p : Path) (f : Except IoError Unit → Io α) :
    (Host.createDirAll p >>= f).run exec h =
      (f (h.createDirAll p).1).run exec (h.createDirAll p).2 := rfl

theorem run_write (p : Path) (b : Bytes) (f : Except IoError Unit → Io α) :
    (Host.write p b >>= f).run exec h = (f (h.write p b).1).run exec (h.write p b).2 := rfl

theorem run_hardLink (a b : Path) (f : Except IoError Unit → Io α) :
    (Host.hardLink a b >>= f).run exec h = (f (h.hardLink a b).1).run exec (h.hardLink a b).2 := rfl

theorem run_copy (a b : Path) (f : Except IoError Unit → Io α) :
    (Host.copy a b >>= f).run exec h = (f (h.copy a b).1).run exec (h.copy a b).2 := rfl

theorem run_symlink (t p : Path) (f : Except IoError Unit → Io α) :
    (Host.symlink t p >>= f).run exec h = (f (h.symlink t p).1).run exec (h.symlink t p).2 := rfl

end Fs

end Host
