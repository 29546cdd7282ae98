import Turbopump.Callbacks.ModifyPeer
import Turbopump.Common.VersionString
import Turbopump.Storage.FileStore

/-! The store that keeps one file per key and takes its version from the file's modification time. Deletes leave an
empty file behind under a name of its own. -/

namespace Turbopump

structure StampedFile where
  content : Bytes
  mtime : UInt64
  deriving DecidableEq

structure SimpleFiles where
  current : Option StampedFile := none
  deleted : Option StampedFile := none
  inprogress : Option StampedFile := none
  reserve : Option StampedFile := none
  deriving DecidableEq

inductive FileName
  | current
  | deleted
  | inprogress
  | reserve
  deriving DecidableEq

namespace SimpleFiles

def get (files : SimpleFiles) : FileName → Option StampedFile
  | .current => files.current
  | .deleted => files.deleted
  | .inprogress => files.inprogress
  | .reserve => files.reserve

/-- The files of a key as `File::exists` and `File::modified_time` tell of them: a directory of other keys passes for a
file where it stands at the path of one. -/
def seen (files : SimpleFiles) (directories : FileName → Option UInt64) : SimpleFiles :=
  let entry name := (files.get name).or ((directories name).map (StampedFile.mk []))
  ⟨entry .current, entry .deleted, entry .inprogress, entry .reserve⟩

lemma seen_eq_self {files : SimpleFiles} {directories : FileName → Option UInt64}
    (h : ∀ name, directories name = none) : files.seen directories = files := by
  simp [seen, get, h]

end SimpleFiles

structure SimpleStream where
  offset : ℕ
  md : KeyMetadata
  closed : Bool := false
  deriving DecidableEq

structure SimpleReading where
  content : Bytes
  md : KeyMetadata
  deriving DecidableEq

namespace SimpleFileStore

variable (T : TurboLib) (hasher : Bytes → Bytes)

def lookupVersion (mtime : UInt64) (isDeleted : Bool) : VectorClock :=
  let vc := T.increment [] (ascii "sec") mtime
  if isDeleted then T.increment vc (ascii "delete") mtime else vc

def removeIfExists (isDeleted : Bool) : Option StampedFile → UInt64
  | none => 0
  | some file => Writestream.digest hasher (VectorClock.toString T (lookupVersion T file.mtime isDeleted))
      file.content.length

def timeFromVersion : VectorClock → UInt64
  | [] => 0
  | c :: _ => c.time

def testIfVersionGreater (version : VectorClock) : Option StampedFile → Bool
  | none => true
  | some file => file.mtime < timeFromVersion version ||
      (timeFromVersion version = file.mtime && VectorClock.isDeleted version)

def versions (files : SimpleFiles) (inprogress : Bool) : List Bytes :=
  let version isDeleted (file : StampedFile) := VectorClock.toString T (lookupVersion T file.mtime isDeleted)
  files.current.toList.map (version false) ++ files.deleted.toList.map (version true) ++
    if inprogress then files.inprogress.toList.map (version false) else []

def mergedVersion (files : SimpleFiles) (inprogress : Bool) : VectorClock :=
  (versions T files inprogress).foldl (fun version v => T.merge version (VectorClock.ofName T v)) []

def openVersion (host : Host) (files : SimpleFiles) (version : VectorClock) : StoreAnswer SimpleStream × SimpleFiles :=
  let current := timeFromVersion (mergedVersion T files true)
  let prospective := timeFromVersion version
  if prospective < current || (prospective = current && ! VectorClock.isDeleted version) ||
      VectorClock.isExpired version 604800 host.now then (.refused, files)
  else (.accepted ⟨0, { version := version }, false⟩,
    { files with inprogress := some (files.inprogress.getD ⟨[], host.now⟩) })

def write (host : Host) (files : SimpleFiles) (version : Bytes) : StoreAnswer SimpleStream × SimpleFiles :=
  match VectorClock.fromString T version with
  | .threw => (.threw, files)
  | .failed => openVersion T host files (T.increment [] (ascii "sec") host.now)
  | .parsed clock => openVersion T host files (if clock = [] then T.increment [] (ascii "sec") host.now else clock)

/-- `read`; it does nothing with its argument `inprogress`. A reader is good if its file is there. -/
def read (name : Bytes) (files : SimpleFiles) (version : Bytes) : StoreAnswer SimpleReading :=
  let merged := mergedVersion T files true
  if version = [] then openReader merged
  else match VectorClock.fromString T version with
  | .threw => .threw
  | .failed => if T.compare [] merged ≠ .equal then .refused else openReader []
  | .parsed clock => if T.compare clock merged ≠ .equal then .refused else openReader clock
where
  openReader (version : VectorClock) : StoreAnswer SimpleReading :=
    match if VectorClock.isDeleted version then files.deleted else files.current with
    | none => .refused
    | some file => .accepted ⟨file.content,
        { version := version, totalCopies := if ModifyPeer.membershipFilePrefix <+: name then 0 else 3 }⟩

def onDeleteComplete (files : SimpleFiles) (md : KeyMetadata) : Bool × KeyMetadata × SimpleFiles :=
  if ¬ testIfVersionGreater md.version files.current then (false, md, { files with inprogress := none })
  else
    let currentDigest := removeIfExists T hasher true files.deleted
    match files.inprogress with
    | none => (false, md, { files with deleted := none })
    | some file =>
      let deleted := some { file with mtime := timeFromVersion md.version }
      let digest := md.digest ^^^ removeIfExists T hasher false files.current ^^^ currentDigest
      (true, { md with digest := digest }, { files with current := none, deleted := deleted, inprogress := none })

def onWriteComplete (files : SimpleFiles) (md : KeyMetadata) : Bool × KeyMetadata × SimpleFiles :=
  if VectorClock.isDeleted md.version then onDeleteComplete T hasher files md
  else if ¬ testIfVersionGreater md.version files.deleted then (false, md, { files with inprogress := none })
  else
    -- renaming a file that is not there changes nothing
    let reserve := files.current.or files.reserve
    match files.inprogress with
    | none => (false, md, { files with current := reserve, reserve := none })
    | some file =>
      let current := some { file with mtime := timeFromVersion md.version }
      let digest := md.digest ^^^ removeIfExists T hasher false reserve ^^^ removeIfExists T hasher true files.deleted
      (true, { md with digest := digest }, { files with current, deleted := none, inprogress := none, reserve := none })

def currentPath (name : Bytes) : Bytes := List.intercalate [47] (components name)

def deletedPath (name : Bytes) : Bytes :=
  List.intercalate [47] ((components name).dropLast ++ [ascii ".deleted." ++ (components name).getLast?.getD []])

/-- What `enumerate` reports of one file: names that end in `~` are versions in progress, and names that begin with
`.deleted.` are deleted ones. -/
def describe (path : Bytes) (file : StampedFile) : Option (Bytes × KeyMetadata × Bytes) :=
  if path.getLast? = some 126 then none
  else
    let isDeleted : Bool := ascii ".deleted." <+: path
    let shortname := if isDeleted then path.drop 9 else path
    let version := lookupVersion T file.mtime isDeleted
    let versionString := VectorClock.toString T version
    let size := file.content.length
    let copies := if ModifyPeer.membershipFilePrefix <+: shortname then 0 else 3
    let digest := Writestream.digest hasher versionString size
    some (shortname, { version := version, totalCopies := copies, digest := digest },
      decimal size ++ 58 :: versionString)

def enumerate (name : Bytes) (files : SimpleFiles) : List (Bytes × KeyMetadata × Bytes) :=
  (files.current.toList.filterMap (describe T hasher (currentPath name))) ++
    files.deleted.toList.filterMap (describe T hasher (deletedPath name))

end SimpleFileStore

namespace SimpleStream

variable (T : TurboLib) (hasher : Bytes → Bytes)

def write (w : SimpleStream) (host : Host) (files : SimpleFiles) (buff : Bytes) : SimpleStream × SimpleFiles :=
  if w.closed then (w, files)
  else match files.inprogress with
    | none => (w, files)
    | some file => ({ w with offset := w.offset + buff.length },
        { files with inprogress := some ⟨FileSystem.overwrite file.content w.offset buff, host.now⟩ })

def commit (w : SimpleStream) (files : SimpleFiles) : SimpleStream × SimpleFiles :=
  let size := match files.inprogress with
    | none => Writestream.badSize
    | some file => file.content.length
  let md := { w.md with digest := Writestream.digest hasher (VectorClock.toString T w.md.version) size }
  let (_, md, files) := SimpleFileStore.onWriteComplete T hasher files md
  ({ w with md := md, closed := true }, files)

end SimpleStream

end Turbopump
