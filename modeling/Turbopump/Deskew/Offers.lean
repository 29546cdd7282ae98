import Turbopump.Callbacks.MirrorToPeer
import Turbopump.Deskew.DigestIndexer
import Turbopump.Deskew.SkewCorrector
import Turbopump.Storage.Tidy

/-! How a node brings the keys of a range to a peer: it offers each version, the peer demands those that it does not
have, and these are sent whole. -/

namespace Turbopump

def DigestTree.enumerate (t : DigestTree) (first last : UInt64) (limit : ℕ) : List Bytes :=
  ((t.inRange first last).take limit).map fun e => e.2.2

/-- `FileStore::isExpired`; `none` is an exception out of `fromString`. -/
def FileStore.isExpired (T : TurboLib) (host : Host) (version : Bytes) : Option Bool :=
  match VectorClock.fromString T version with
  | .threw => none
  | .failed => some false
  | .parsed clock => some (VectorClock.isExpired clock 604800 host.now)

inductive SyncMessage where
  | offerWrite (name version source : Bytes)
  | demandWrite (name version source : Bytes)
  | store (write : WriteInstructions) (contents : Bytes)
  deriving DecidableEq

namespace SkewCorrector

variable {θ : Type} (T : TurboLib)

/-- The loop of `pushKeyRange` over the files that the tree enumerates: the offers that it sends. -/
def pushFiles (offloadFrom : Bytes) : List Bytes → StoreState (Callbacks θ) →
    List SyncMessage × StoreState (Callbacks θ)
  | [], s => ([], s)
  | file :: files, s =>
    let versions := FileStore.versions s.fs file true
    let offer (s : StoreState (Callbacks θ)) :=
      let (offers, s) := pushFiles offloadFrom files s
      (versions.map (SyncMessage.offerWrite file · offloadFrom) ++ offers, s)
    match versions with
    | [version] => match FileStore.isExpired T s.host version with
      | none => ([], s)
      | some true => pushFiles offloadFrom files (dropKey T s file).2
      | some false => offer s
    | _ => offer s

def pushKeyRange (tree : DigestTree) (first last : UInt64) (offloadFrom : Bytes) (s : StoreState (Callbacks θ)) :
    List SyncMessage × StoreState (Callbacks θ) := pushFiles T offloadFrom (tree.enumerate first last 50) s

def sendKey (name version source : Bytes) (fs : FileSystem) : Outcome × Option SyncMessage :=
  match FileStore.read T fs name version false with
  | .threw => (.threw, none)
  | .refused => (.returned false, none)
  | .accepted reader =>
    let totalCopies := reader.md.totalCopies
    let write : WriteInstructions := {
      name := name
      copies := toShort totalCopies
      mirror := toShort totalCopies
      version := version
      source := source
      isComplete := true }
    (.returned true, some (.store write (fs.file reader.inode).content))

end SkewCorrector

namespace OfferWriteCommand

/-- An offer is only answered if the version is needed. -/
def run (name version source : Bytes) (fs : FileSystem) : Bool × Option SyncMessage :=
  if ¬ FileStore.exists_ fs name version then (true, some (.demandWrite name version source)) else (false, none)

end OfferWriteCommand

namespace DemandWriteCommand

def run (T : TurboLib) (name version source : Bytes) (fs : FileSystem) : Outcome × Option SyncMessage :=
  if name = [] then (.returned false, none)
  else match SkewCorrector.sendKey T name version source fs with
    | (.threw, _) => (.threw, none)
    | (.returned _, sent) => (.returned true, sent)

end DemandWriteCommand

section Offers

open VectorClock (IsVersion)

variable {T : TurboLib} {θ : Type} {n v : Bytes}

lemma FileStore.isExpired_version (hv : IsVersion T v) (host : Host) :
    FileStore.isExpired T host v = some (VectorClock.isExpired (VectorClock.ofName T v) 604800 host.now) := by
  rw [FileStore.isExpired, hv.fromString]

lemma SkewCorrector.pushFiles_eq (offloadFrom : Bytes) (files : List Bytes) (s : StoreState (Callbacks θ))
    (hfresh : ∀ file ∈ files, ∀ v ∈ FileStore.versions s.fs file true,
      FileStore.isExpired T s.host v = some false) :
    pushFiles T offloadFrom files s = (files.flatMap fun file =>
      (FileStore.versions s.fs file true).map (SyncMessage.offerWrite file · offloadFrom), s) := by
  induction files with
  | nil => rfl
  | cons file files ih =>
    obtain ⟨hfile, hfiles⟩ := List.forall_mem_cons.1 hfresh
    rw [List.flatMap_cons]
    rcases hversions : FileStore.versions s.fs file true with _ | ⟨v, _ | ⟨u, more⟩⟩
    · simp only [pushFiles, hversions, ih hfiles]
    · have hv := hfile v (by rw [hversions]; exact List.mem_cons_self)
      simp only [pushFiles, hversions, hv, ih hfiles]
    · simp only [pushFiles, hversions, ih hfiles]

lemma SkewCorrector.sendKey_stored (hT : T.Base64) {fs : FileSystem} (hdir : FileStore.KeyDir T fs n)
    (hv : IsVersion T v) {file : File} (hfile : FileStore.stored fs n v = some file) (source : Bytes) :
    ∃ write : WriteInstructions, SkewCorrector.sendKey T n v source fs =
        (.returned true, some (.store write file.content)) ∧ write.name = n ∧ write.version = v ∧
      write.source = source ∧ write.copies = toShort (mdFromString {} file.md).totalCopies := by
  rw [hdir.stored_eq hT hv] at hfile
  obtain ⟨inode, hlookup, rfl⟩ := Option.map_eq_some_iff.1 hfile
  have hread : FileStore.read T fs n v false =
      .accepted ⟨inode, mdFromString { version := VectorClock.ofName T v } (fs.file inode).md⟩ := by
    rw [FileStore.read, hv.fromString]
    simp only [if_neg hv.ofName_ne_nil, FileStore.read.openReader, hv.toString_ofName, FileStore.filepath_eq hv,
      FileSystem.find_concat, hlookup]
    rfl
  refine ⟨_, by rw [SkewCorrector.sendKey, hread], rfl, rfl, rfl, ?_⟩
  cases (fs.file inode).md with
  | nil => rfl
  | cons copies rest => rfl

lemma SkewCorrector.sendKey_missing (hT : T.Base64) {fs : FileSystem} (hdir : FileStore.KeyDir T fs n)
    (hv : IsVersion T v) (hfile : FileStore.stored fs n v = none) (source : Bytes) :
    SkewCorrector.sendKey T n v source fs = (.returned false, none) := by
  rw [hdir.stored_eq hT hv, Option.map_eq_none_iff] at hfile
  have hread : FileStore.read T fs n v false = .refused := by
    rw [FileStore.read, hv.fromString]
    simp only [if_neg hv.ofName_ne_nil, FileStore.read.openReader, hv.toString_ofName, FileStore.filepath_eq hv,
      FileSystem.find_concat, hfile]
    rfl
  rw [SkewCorrector.sendKey, hread]

end Offers

end Turbopump
