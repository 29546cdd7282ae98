import Turbopump.Api.WriteCommand
import Turbopump.Common.VectorClock
import Turbopump.Hashing.ConsistentHashRing
import Turbopump.Storage.FileSystem

/-! The store that keeps every version of a key as a file of its own in the key's directory, unfinished
versions under a name that ends in `~`. -/

namespace Turbopump

structure Host where
  memberId : Bytes
  now : UInt64

structure KeyMetadata where
  version : VectorClock := []
  totalCopies : ℕ := 3
  supercede : Bool := true
  digest : UInt64 := 0
  deriving DecidableEq

def mdFromString (md : KeyMetadata) : Bytes → KeyMetadata
  | [] => md
  | copies :: rest => { md with totalCopies := copies.toNat, supercede := rest.head? = some 49 }

def mdToString (md : KeyMetadata) : Bytes := [UInt8.ofNat md.totalCopies, if md.supercede then 49 else 48]

/-- `inode` is what the descriptor refers to, `none` when it is closed. -/
structure FileWriter where
  inode : Option ℕ
  offset : ℕ
  path : Path

structure Writestream where
  writer : FileWriter
  md : KeyMetadata
  name : Bytes

structure Readstream where
  inode : ℕ
  md : KeyMetadata

def Writestream.digest (hasher : Bytes → Bytes) (version : Bytes) (size : ℕ) : UInt64 :=
  Hash.integer (hasher (version ++ decimal size))

namespace FileStore

variable (T : TurboLib) (hasher : Bytes → Bytes)

def dirpath (name : Bytes) : Path := components name

def filepath (name version : Bytes) : Path := components (name ++ 47 :: version)

def tempname (name version : Bytes) : Path := components (name ++ 47 :: (version ++ [126]))

def versionOf (inprogress : Bool) (ver : Bytes) : Option Bytes :=
  if 44 ∉ ver then none
  else if ver.getLast? = some 126 then if inprogress then some ver.dropLast else none
  else some ver

def versions (fs : FileSystem) (name : Bytes) (inprogress : Bool) : List Bytes :=
  (fs.list (dirpath name)).filterMap (versionOf inprogress)

def mergedVersion (fs : FileSystem) (name : Bytes) (inprogress : Bool) : VectorClock :=
  (versions fs name inprogress).foldl (fun version v => T.merge version (VectorClock.ofName T v)) []

def exists_ (fs : FileSystem) (name version : Bytes) : Bool := version ∈ versions fs name true

def openVersion (fs : FileSystem) (name : Bytes) (version : VectorClock) (copies : ℕ) :
    StoreAnswer Writestream × FileSystem :=
  let md : KeyMetadata := { version := version, totalCopies := copies }
  let path := tempname name (VectorClock.toString T version)
  match (fs.createDirectories (dirpath name)).openWrite path with
  | (none, fs) => (.refused, fs)
  | (some inode, fs) => (.accepted ⟨⟨some inode, 0, path⟩, md, name⟩, fs.setAttribute inode (mdToString md))

/-- `write`; it does nothing with its argument `offset`. -/
def write (host : Host) (fs : FileSystem) (name version : Bytes) (copies : ℕ) :
    StoreAnswer Writestream × FileSystem :=
  let fresh := T.increment (mergedVersion T fs name true) host.memberId host.now
  match VectorClock.fromString T version with
  | .threw => (.threw, fs)
  | .failed => openVersion T fs name fresh copies
  | .parsed clock =>
    if clock = [] then openVersion T fs name fresh copies
    else if exists_ fs name version || VectorClock.isExpired clock 604800 host.now then (.refused, fs)
    else openVersion T fs name clock copies

def read (fs : FileSystem) (name version : Bytes) (inprogress : Bool) : StoreAnswer Readstream :=
  match VectorClock.fromString T version with
  | .threw => .threw
  | .failed => openReader (mergedVersion T fs name inprogress)
  | .parsed clock => openReader (if clock = [] then mergedVersion T fs name inprogress else clock)
where
  openReader (clock : VectorClock) : StoreAnswer Readstream :=
    let vstr := VectorClock.toString T clock
    match (if inprogress then fs.find (tempname name vstr) else none).or (fs.find (filepath name vstr)) with
    | none => .refused
    | some inode => .accepted ⟨inode, mdFromString { version := clock } (fs.file inode).md⟩

def obsolete (all : List Bytes) (master : VectorClock) : List Bytes :=
  (all.filterMap fun v =>
    let version := VectorClock.ofName T v
    match T.compare version master with
    | .lessThan => some (VectorClock.toString T version)
    | .greaterThan => some (VectorClock.toString T master)
    | _ => none).dedup

def purge (name : Bytes) : KeyMetadata × FileSystem → Bytes → KeyMetadata × FileSystem := fun (master, fs) vstr =>
  ({ master with digest := master.digest ^^^ Writestream.digest hasher vstr (fs.size (filepath name vstr)) },
    fs.remove (filepath name vstr))

def purgeObsolete (fs : FileSystem) (name : Bytes) (master : KeyMetadata) : KeyMetadata × FileSystem :=
  (obsolete T (versions fs name false) master.version).foldl (purge hasher name) (master, fs)

def onWriteComplete (fs : FileSystem) (name : Bytes) (md : KeyMetadata) : KeyMetadata × FileSystem :=
  let vstr := VectorClock.toString T md.version
  match fs.rename (tempname name vstr) (filepath name vstr) with
  | (false, fs) => (md, fs)
  | (true, fs) => purgeObsolete T hasher fs name md

def remove (fs : FileSystem) (name : Bytes) : Bool × FileSystem :=
  let fs := fs.removeAll (dirpath name)
  ((versions fs name true).isEmpty, fs)

end FileStore

namespace Writestream

variable (T : TurboLib) (hasher : Bytes → Bytes)

/-- A write that the file system takes whole. -/
def write (w : Writestream) (fs : FileSystem) (buff : Bytes) : Writestream × FileSystem := match w.writer.inode with
  | none => (w, fs)
  | some inode => ({ w with writer.offset := w.writer.offset + buff.length }, fs.writeAt inode w.writer.offset buff)

def badSize : ℕ :=
  -- The size of a reader that is not good.
  2 ^ 64 - 1

/-- Flush, close if asked to, then `do_commit`. The reader is opened before the completion handler renames
its file. -/
def commit (w : Writestream) (fs : FileSystem) (close : Bool) : Option Readstream × Writestream × FileSystem :=
  let reader := fs.find w.writer.path
  let size := match reader with
    | none => badSize
    | some inode => (fs.file inode).content.length
  let md := { w.md with digest := digest hasher (VectorClock.toString T w.md.version) size }
  let (md, fs) := if close then FileStore.onWriteComplete T hasher fs w.name md else (md, fs)
  (reader.map (⟨·, md⟩), { w with writer.inode := if close then none else w.writer.inode, md := md }, fs)

def position (w : Writestream) : Option ℕ := w.writer.inode.map fun _ => w.writer.offset

end Writestream

structure StoreState (κ : Type) where
  fs : FileSystem
  host : Host
  callbacks : κ

def toUnsignedShort (n : ℤ) : ℕ := (n % 65536).toNat

def FileStore.env {κ : Type} (T : TurboLib) (hasher : Bytes → Bytes)
    (onCommit : WriteInstructions → Readstream → StoreState κ → WriteInstructions × StoreState κ) :
    WriteEnv (StoreState κ) Writestream Readstream where
  store request s :=
    let (answer, fs) := FileStore.write T s.host s.fs request.name request.version (toUnsignedShort request.copies)
    (answer, { s with fs := fs })
  write w buff s :=
    let (w, fs) := w.write s.fs buff
    (w, { s with fs := fs })
  commit w close s :=
    let (reader, w, fs) := w.commit T hasher s.fs close
    (reader, w, { s with fs := fs })
  position := Writestream.position
  version reader := VectorClock.toString T reader.md.version
  digest reader := reader.md.digest
  onCommit := onCommit

end Turbopump
