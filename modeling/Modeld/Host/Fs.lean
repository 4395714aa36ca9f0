import Mathlib
import Modeld.Host.Path

/-!
# A file system

Paths name entries, and a file entry points at an inode that holds the bytes, so two names can
share one file (hard links) and a name can change hands while an open file goes on pointing at
its inode. The operations are those of `std::fs`, each taken as one atomic step: they return what
the call returns and the file system afterwards.

Directory entries are kept in a list, whose order is the order in which a directory is listed.
Time is read from `clock`, one reading for each write, so nothing is assumed about the order or
the distinctness of modification times.
-/

namespace Host

/-- Content of a file. -/
abbrev Bytes := List UInt8

/-- Number of an inode. -/
abbrev Ino := Nat

/-- Why a call failed, as `std::io::ErrorKind` tells it. -/
inductive IoError
  | notFound
  | alreadyExists
  | isADirectory
  | notADirectory
  | permissionDenied
  | unsupported
  | invalidInput
  | invalidData
  | unexpectedEof
  | tooManyLinks
  | storageFull
  | other
  /-- An error of kind `InvalidData` that a program made up with a text of its own. -/
  | custom (msg : String)
deriving DecidableEq

/-- The text of an error. -/
def IoError.text : IoError → String
  | notFound => "No such file or directory (os error 2)"
  | alreadyExists => "File exists (os error 17)"
  | isADirectory => "Is a directory (os error 21)"
  | notADirectory => "Not a directory (os error 20)"
  | permissionDenied => "Permission denied (os error 13)"
  | unsupported => "Operation not supported (os error 95)"
  | invalidInput => "invalid input parameter"
  | invalidData => "stream did not contain valid UTF-8"
  | unexpectedEof => "failed to fill whole buffer"
  | tooManyLinks => "Too many levels of symbolic links (os error 40)"
  | storageFull => "No space left on device (os error 28)"
  | other => "Input/output error (os error 5)"
  | custom msg => msg

/-- A file's bytes and when they were last written. -/
structure Inode where
  data : Bytes
  mtime : Nat

/-- What a path names. -/
inductive Entry
  | dir
  | file (ino : Ino)
  | symlink (target : Path)
deriving DecidableEq

/-- The entry is a regular file. -/
def Entry.isFile : Entry → Bool
  | file _ => true
  | _ => false

/-- The state of a file system, together with the counters that the calls of one process share. -/
structure Fs where
  entries : AList fun _ : Path => Entry
  inodes : Ino → Inode
  /-- The number the next new file gets. -/
  nextIno : Ino
  /-- What the clock shows at each write, and how many writes there were. -/
  clock : Nat → Nat
  ticks : Nat
  /-- Whether this file system can make hard links. -/
  hardLinks : Bool
  /-- The length that a directory reports for itself. -/
  dirLen : Nat
  counters : Nat → Nat

/-- What `stat` reports. -/
structure Metadata where
  isFile : Bool
  isDir : Bool
  len : Nat
  modified : Nat
  ino : Ino
deriving DecidableEq

/-- One line of a directory listing: the name and the metadata, which do not follow a symbolic
link. -/
structure DirEntry where
  name : Name
  metadata : Metadata
deriving DecidableEq

namespace Fs

/-- What a path names, without following a link. -/
def lookup (h : Fs) (p : Path) : Option Entry :=
  if p = [] then some .dir else h.entries.lookup p

/-- Follow links from a path, at most as many as the kernel does. -/
def walk (h : Fs) : Nat → Path → Path
  | 0, p => p
  | n + 1, p =>
    match h.lookup p with
    | some (.symlink target) => h.walk n target
    | _ => p

/-- Where a path leads. -/
def final (h : Fs) (p : Path) : Path := h.walk 40 p

/-- The file a path leads to. -/
def fileAt (h : Fs) (p : Path) : Option Ino :=
  match h.lookup (h.final p) with
  | some (.file i) => some i
  | _ => none

/-- The bytes of an inode. -/
def data (h : Fs) (i : Ino) : Bytes := (h.inodes i).data

/-- The bytes a path leads to. -/
def contents (h : Fs) (p : Path) : Option Bytes := (h.fileAt p).map h.data

/-- A directory can hold a new entry. -/
def hasParent (h : Fs) (p : Path) : Bool := h.lookup p.dropLast = some .dir

/-- Name an entry, replacing what the path named before. -/
def setEntry (h : Fs) (p : Path) (e : Entry) : Fs := { h with entries := h.entries.insert p e }

/-- Forget a path. -/
def unlink (h : Fs) (p : Path) : Fs := { h with entries := h.entries.erase p }

/-- Write the bytes of an inode, now. -/
def setData (h : Fs) (i : Ino) (b : Bytes) : Fs :=
  { h with
    inodes := Function.update h.inodes i ⟨b, h.clock h.ticks⟩
    ticks := h.ticks + 1 }

/-- A new empty file under a free name. -/
def newFile (h : Fs) (p : Path) : Fs :=
  { (h.setEntry p (.file h.nextIno)).setData h.nextIno [] with nextIno := h.nextIno + 1 }

/-- Metadata of an entry that is not a link. -/
def stat (h : Fs) : Entry → Metadata
  | .file i => ⟨true, false, (h.data i).length, (h.inodes i).mtime, i⟩
  | .dir => ⟨false, true, h.dirLen, 0, 0⟩
  | .symlink _ => ⟨false, false, 0, 0, 0⟩

/-! ### The calls -/

/-- `Path::is_file`. -/
def isFile (h : Fs) (p : Path) : Bool := (h.fileAt p).isSome

/-- `Path::is_dir`. -/
def isDir (h : Fs) (p : Path) : Bool := h.lookup (h.final p) = some .dir

/-- `Path::exists`. -/
def pathExists (h : Fs) (p : Path) : Bool :=
  match h.lookup (h.final p) with
  | some (.symlink _) | none => false
  | _ => true

/-- `fs::canonicalize`. -/
def canonicalize (h : Fs) (p : Path) : Except IoError Path :=
  if h.pathExists p then .ok (h.final p) else .error .notFound

/-- `fs::metadata`. -/
def metadata (h : Fs) (p : Path) : Except IoError Metadata :=
  match h.lookup (h.final p) with
  | some (.symlink _) => .error .tooManyLinks
  | some e => .ok (h.stat e)
  | none => .error .notFound

/-- `fs::read_dir`, with the metadata of every entry. -/
def readDir (h : Fs) (p : Path) : Except IoError (List DirEntry) :=
  match h.lookup p with
  | some .dir => .ok <| h.entries.entries.filterMap fun e =>
      (Path.childName p e.1).map fun n => ⟨n, h.stat e.2⟩
  | some _ => .error .notADirectory
  | none => .error .notFound

/-- `File::open`. -/
def openFile (h : Fs) (p : Path) : Except IoError Ino :=
  match h.lookup (h.final p) with
  | some (.file i) => .ok i
  | some .dir => .error .isADirectory
  | some (.symlink _) => .error .tooManyLinks
  | none => .error .notFound

/-- `File::create`: truncates the file the path leads to, or makes a new one. -/
def create (h : Fs) (p : Path) : Except IoError Ino × Fs :=
  match h.lookup (h.final p) with
  | some (.file i) => (.ok i, h.setData i [])
  | some .dir => (.error .isADirectory, h)
  | some (.symlink _) => (.error .tooManyLinks, h)
  | none =>
    if h.hasParent (h.final p) then (.ok h.nextIno, h.newFile (h.final p))
    else (.error .notFound, h)

/-- Bytes `b` written over `old` at an offset; a gap reads as zeros. -/
def patch (old : Bytes) (off : Nat) (b : Bytes) : Bytes :=
  old.take off ++ List.replicate (off - old.length) 0 ++ b ++ old.drop (off + b.length)

/-- `Write::write_all` on an open file, at the offset the file stands at. -/
def writeAt (h : Fs) (i : Ino) (off : Nat) (b : Bytes) : Fs := h.setData i (patch (h.data i) off b)

/-- `fs::write`: create or truncate, then write. -/
def write (h : Fs) (p : Path) (b : Bytes) : Except IoError Unit × Fs :=
  match h.create p with
  | (.ok i, h') => (.ok (), h'.setData i b)
  | (.error e, h') => (.error e, h')

/-- `fs::rename`. Renaming a name onto another name of the same file changes nothing; renaming a
directory is not modelled. -/
def rename (h : Fs) (a b : Path) : Except IoError Unit × Fs :=
  match h.lookup a with
  | none => (.error .notFound, h)
  | some .dir => (.error .other, h)
  | some e =>
    if h.lookup b = some .dir then (.error .isADirectory, h)
    else if h.lookup b = some e ∧ e.isFile then (.ok (), h)
    else if h.hasParent b then (.ok (), (h.unlink a).setEntry b e)
    else (.error .notFound, h)

/-- `fs::remove_file`. -/
def removeFile (h : Fs) (p : Path) : Except IoError Unit × Fs :=
  match h.lookup p with
  | none => (.error .notFound, h)
  | some .dir => (.error .isADirectory, h)
  | some _ => (.ok (), h.unlink p)

/-- `fs::hard_link`: a second name for what `a` names. -/
def hardLink (h : Fs) (a b : Path) : Except IoError Unit × Fs :=
  match h.lookup a with
  | none => (.error .notFound, h)
  | some .dir => (.error .permissionDenied, h)
  | some e =>
    if (h.lookup b).isSome then (.error .alreadyExists, h)
    else if !h.hardLinks then (.error .unsupported, h)
    else if h.hasParent b then (.ok (), h.setEntry b e)
    else (.error .notFound, h)

/-- `fs::copy`: opens the source, creates or truncates the destination, and only then reads. -/
def copy (h : Fs) (a b : Path) : Except IoError Unit × Fs :=
  match h.fileAt a with
  | none => (.error .notFound, h)
  | some i =>
    match h.create b with
    | (.ok j, h') => (.ok (), h'.setData j (h'.data i))
    | (.error e, h') => (.error e, h')

/-- `unix::fs::symlink`. -/
def symlink (h : Fs) (target p : Path) : Except IoError Unit × Fs :=
  if (h.lookup p).isSome then (.error .alreadyExists, h)
  else if h.hasParent p then (.ok (), h.setEntry p (.symlink target))
  else (.error .notFound, h)

/-- Make the directories `base / c₁`, `base / c₁ / c₂`, … that do not exist yet. -/
def makeDirs (h : Fs) (base : Path) : List Name → Except IoError Unit × Fs
  | [] => (.ok (), h)
  | c :: cs =>
    match h.lookup (base ++ [c]) with
    | some .dir => makeDirs h (base ++ [c]) cs
    | none => makeDirs (h.setEntry (base ++ [c]) .dir) (base ++ [c]) cs
    | some _ => (.error .alreadyExists, h)

/-- `fs::create_dir_all`. -/
def createDirAll (h : Fs) (p : Path) : Except IoError Unit × Fs := h.makeDirs [] p

/-- `AtomicU64::fetch_add(1)` on a counter. -/
def fetchAdd (h : Fs) (cell : Nat) : Nat × Fs :=
  (h.counters cell,
    { h with counters := Function.update h.counters cell (h.counters cell + 1) })

end Fs

end Host
