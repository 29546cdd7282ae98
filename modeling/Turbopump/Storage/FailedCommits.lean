import Turbopump.Common.ReferenceClocks
import Turbopump.Storage.SimpleFileStore

/-! The completion handlers of the simple store when operations on files may fail: each has its effect or none. -/

namespace Turbopump

inductive FileOp
  | rename (src dst : FileName)
  | setModifiedTime (name : FileName)
  | remove (name : FileName)
  deriving DecidableEq

namespace SimpleFiles

def set (files : SimpleFiles) (file : Option StampedFile) : FileName → SimpleFiles
  | .current => { files with current := file }
  | .deleted => { files with deleted := file }
  | .inprogress => { files with inprogress := file }
  | .reserve => { files with reserve := file }

variable (works : FileOp → Bool)

def rename (files : SimpleFiles) (src dst : FileName) : Bool × SimpleFiles := match files.get src with
  | none => (false, files)
  | some file => if works (.rename src dst) then (true, (files.set (some file) dst).set none src) else (false, files)

def setModifiedTime (files : SimpleFiles) (name : FileName) (time : UInt64) : Bool × SimpleFiles :=
  match files.get name with
  | none => (false, files)
  | some file => if works (.setModifiedTime name) then (true, files.set (some { file with mtime := time }) name)
    else (false, files)

def remove (files : SimpleFiles) (name : FileName) : SimpleFiles :=
  if works (.remove name) then files.set none name else files

end SimpleFiles

namespace FailedCommits

open SimpleFileStore (testIfVersionGreater timeFromVersion)

variable (T : TurboLib) (hasher : Bytes → Bytes) (works : FileOp → Bool)

def removeIfExists (files : SimpleFiles) (name : FileName) (isDeleted : Bool) : UInt64 × SimpleFiles :=
  (SimpleFileStore.removeIfExists T hasher isDeleted (files.get name), files.remove works name)

def publish (files : SimpleFiles) (name : FileName) (time : UInt64) : Bool × SimpleFiles :=
  match files.setModifiedTime works .inprogress time with
  | (false, files) => (false, files)
  | (true, files) => files.rename works .inprogress name

def onDeleteComplete (files : SimpleFiles) (md : KeyMetadata) : Bool × KeyMetadata × SimpleFiles :=
  if ¬ testIfVersionGreater md.version files.current then (false, md, files.remove works .inprogress)
  else
    let (currentDigest, files) := removeIfExists T hasher works files .deleted true
    match publish works files .deleted (timeFromVersion md.version) with
    | (false, files) => (false, md, files.remove works .inprogress)
    | (true, files) =>
      let (digest, files) := removeIfExists T hasher works files .current false
      (true, { md with digest := md.digest ^^^ digest ^^^ currentDigest }, files)

def onWriteComplete (files : SimpleFiles) (md : KeyMetadata) : Bool × KeyMetadata × SimpleFiles :=
  if VectorClock.isDeleted md.version then onDeleteComplete T hasher works files md
  else if ¬ testIfVersionGreater md.version files.deleted then (false, md, files.remove works .inprogress)
  else
    let (_, files) := files.rename works .current .reserve
    match publish works files .current (timeFromVersion md.version) with
    | (false, files) =>
      let (_, files) := files.rename works .reserve .current
      (false, md, files.remove works .inprogress)
    | (true, files) =>
      let (reserveDigest, files) := removeIfExists T hasher works files .reserve false
      let (deletedDigest, files) := removeIfExists T hasher works files .deleted true
      (true, { md with digest := md.digest ^^^ reserveDigest ^^^ deletedDigest }, files)

def RolledBack (files : SimpleFiles) (md : KeyMetadata) (answer : Bool × KeyMetadata × SimpleFiles) : Prop :=
  answer.1 = false →
    answer.2.2.current = files.current ∧ answer.2.2.deleted = files.deleted ∧ answer.2.1.digest = md.digest

def Publishes (files : SimpleFiles) (name : FileName) : Prop :=
  files.inprogress ≠ none ∧ works (.setModifiedTime .inprogress) ∧ works (.rename .inprogress name)

/-- Where a delete is not published, there was no deleted file to lose, or it could not be removed. -/
def DeleteHolds (files : SimpleFiles) (md : KeyMetadata) : Prop :=
  testIfVersionGreater md.version files.current → ¬ Publishes works files .deleted →
    files.deleted = none ∨ works (.remove .deleted) = false

/-- Where a write is not published, the current file gets back from the reserve if it was moved there. Otherwise
nothing comes from the reserve, or only what is current. -/
def WriteHolds (files : SimpleFiles) (md : KeyMetadata) : Prop :=
  testIfVersionGreater md.version files.deleted → ¬ Publishes works files .current →
    if files.current ≠ none ∧ works (.rename .current .reserve) then works (.rename .reserve .current) = true
    else files.reserve = none ∨ files.reserve = files.current ∨ works (.rename .reserve .current) = false

variable {T hasher works} {files : SimpleFiles} {md : KeyMetadata} {name : FileName} {time : UInt64}

lemma onDeleteComplete_works : onDeleteComplete T hasher (fun _ => true) files md =
    SimpleFileStore.onDeleteComplete T hasher files md := by
  obtain ⟨current, deleted, inprogress, reserve⟩ := files
  rw [onDeleteComplete, SimpleFileStore.onDeleteComplete]
  cases inprogress with
  | none => rfl
  | some file => rfl

lemma onWriteComplete_works : onWriteComplete T hasher (fun _ => true) files md =
    SimpleFileStore.onWriteComplete T hasher files md := by
  obtain ⟨current, deleted, inprogress, reserve⟩ := files
  rw [onWriteComplete, SimpleFileStore.onWriteComplete, onDeleteComplete_works]
  cases inprogress with
  | none => cases current <;> cases reserve <;> rfl
  | some file => cases current <;> rfl

lemma publish_cases (name : FileName) (time : UInt64) :
    (Publishes works files name ∧ ∃ after, publish works files name time = (true, after)) ∨
      (¬ Publishes works files name ∧ ∃ file, publish works files name time =
        (false, { files with inprogress := file })) := by
  obtain ⟨current, deleted, inprogress, reserve⟩ := files
  cases inprogress with
  | none => exact .inr ⟨by simp [Publishes], none, rfl⟩
  | some file =>
    cases hstamp : works (.setModifiedTime .inprogress) with
    | false =>
      refine .inr ⟨by simp [Publishes, hstamp], some file, ?_⟩
      simp [publish, SimpleFiles.setModifiedTime, SimpleFiles.get, hstamp]
    | true =>
      cases hrename : works (.rename .inprogress name) with
      | false =>
        refine .inr ⟨by simp [Publishes, hrename], some { file with mtime := time }, ?_⟩
        simp [publish, SimpleFiles.setModifiedTime, SimpleFiles.rename, SimpleFiles.get, SimpleFiles.set,
          hstamp, hrename]
      | true =>
        refine .inl ⟨by simp [Publishes, hstamp, hrename], ?_⟩
        simp [publish, SimpleFiles.setModifiedTime, SimpleFiles.rename, SimpleFiles.get, SimpleFiles.set,
          hstamp, hrename]

lemma remove_inprogress : ∃ file, files.remove works .inprogress = { files with inprogress := file } := by
  rw [SimpleFiles.remove]
  split_ifs
  · exact ⟨none, rfl⟩
  · exact ⟨files.inprogress, rfl⟩

lemma remove_deleted : files.remove works .deleted =
    { files with deleted := if works (.remove .deleted) then none else files.deleted } := by
  rw [SimpleFiles.remove]
  split_ifs <;> rfl

lemma rename_back (file : Option StampedFile) :
    let moved := (files.rename works .current .reserve).2
    let back := ({ moved with inprogress := file }.rename works .reserve .current).2
    moved.inprogress = files.inprogress ∧ back.deleted = files.deleted ∧ (back.current = files.current ↔
      if files.current ≠ none ∧ works (.rename .current .reserve) then works (.rename .reserve .current) = true
      else files.reserve = none ∨ files.reserve = files.current ∨ works (.rename .reserve .current) = false) := by
  obtain ⟨current, deleted, inprogress, reserve⟩ := files
  cases current with
  | none =>
    cases reserve with
    | none => simp [SimpleFiles.rename, SimpleFiles.get]
    | some old => cases hback : works (.rename .reserve .current) <;>
        simp [SimpleFiles.rename, SimpleFiles.get, SimpleFiles.set, hback]
  | some held =>
    cases haway : works (.rename .current .reserve) with
    | true => cases hback : works (.rename .reserve .current) <;>
        simp [SimpleFiles.rename, SimpleFiles.get, SimpleFiles.set, haway, hback]
    | false =>
      cases reserve with
      | none => simp [SimpleFiles.rename, SimpleFiles.get, haway]
      | some old => cases hback : works (.rename .reserve .current) <;>
          simp [SimpleFiles.rename, SimpleFiles.get, SimpleFiles.set, haway, hback]

lemma onDeleteComplete_rolledBack_iff :
    RolledBack files md (onDeleteComplete T hasher works files md) ↔ DeleteHolds works files md := by
  rw [RolledBack, onDeleteComplete]
  by_cases hgreater : testIfVersionGreater md.version files.current = true
  · -- the deleted file is gone before the new one has its name
    have hpublishes : Publishes works (files.remove works .deleted) .deleted ↔ Publishes works files .deleted := by
      rw [remove_deleted]
      rfl
    rcases @publish_cases works (files.remove works .deleted) .deleted (timeFromVersion md.version) with
      ⟨hpublish, after, htrue⟩ | ⟨hpublish, file, hfalse⟩
    · simp [DeleteHolds, hgreater, removeIfExists, htrue, hpublishes.1 hpublish]
    · obtain ⟨file', hremove⟩ := @remove_inprogress works { files.remove works .deleted with inprogress := file }
      simp only [hgreater, not_true_eq_false, if_false, removeIfExists, hfalse, hremove]
      rw [DeleteHolds, remove_deleted]
      have hunpublished := mt hpublishes.2 hpublish
      cases hworks : works (.remove .deleted) <;> simp [hgreater, hunpublished, eq_comm]
  · obtain ⟨file, hremove⟩ := @remove_inprogress works files
    simp [DeleteHolds, hgreater, hremove]

lemma onWriteComplete_rolledBack_iff (hlive : VectorClock.isDeleted md.version = false) :
    RolledBack files md (onWriteComplete T hasher works files md) ↔ WriteHolds works files md := by
  rw [RolledBack, onWriteComplete]
  by_cases hgreater : testIfVersionGreater md.version files.deleted = true
  · have hpublishes : Publishes works (files.rename works .current .reserve).2 .current ↔
      Publishes works files .current := by
      rw [Publishes, Publishes, (rename_back none).1]
    rcases @publish_cases works (files.rename works .current .reserve).2 .current (timeFromVersion md.version) with
      ⟨hpublish, after, htrue⟩ | ⟨hpublish, file, hfalse⟩
    · simp [WriteHolds, hlive, hgreater, removeIfExists, htrue, hpublishes.1 hpublish]
    · obtain ⟨-, hdeleted, hcurrent⟩ := @rename_back works files file
      obtain ⟨file', hremove⟩ := @remove_inprogress works
        ({ (files.rename works .current .reserve).2 with inprogress := file }.rename works .reserve .current).2
      simp only [hlive, hgreater, not_true_eq_false, if_false, hfalse, hremove, hdeleted]
      rw [WriteHolds, ← hcurrent]
      simp [hgreater, mt hpublishes.2 hpublish]
  · obtain ⟨file, hremove⟩ := @remove_inprogress works files
    simp [WriteHolds, hlive, hgreater, hremove]

theorem rolled_back_iff :
    (RolledBack files md (onWriteComplete T hasher works files md) ↔
      if VectorClock.isDeleted md.version then DeleteHolds works files md else WriteHolds works files md) ∧
      (RolledBack files md (onDeleteComplete T hasher works files md) ↔ DeleteHolds works files md) := by
  refine ⟨?_, onDeleteComplete_rolledBack_iff⟩
  cases hdeleted : VectorClock.isDeleted md.version with
  | true =>
    rw [onWriteComplete, if_pos hdeleted, if_pos rfl]
    exact onDeleteComplete_rolledBack_iff
  | false => simpa using onWriteComplete_rolledBack_iff hdeleted

theorem not_rolled_back_when_rename_fails :
    ¬ RolledBack { deleted := some ⟨[], 5⟩, inprogress := some ⟨[], 9⟩ } { version := [⟨ascii "delete", 9, 0⟩] }
      (onDeleteComplete TurboLib.reference id (· ≠ .rename .inprogress .deleted)
        { deleted := some ⟨[], 5⟩, inprogress := some ⟨[], 9⟩ } { version := [⟨ascii "delete", 9, 0⟩] }) ∧
    ¬ RolledBack { inprogress := some ⟨[98], 9⟩, reserve := some ⟨[97], 5⟩ } { version := [⟨ascii "sec", 9, 0⟩] }
      (onWriteComplete TurboLib.reference id (· ≠ .rename .inprogress .current)
        { inprogress := some ⟨[98], 9⟩, reserve := some ⟨[97], 5⟩ } { version := [⟨ascii "sec", 9, 0⟩] }) := by
  constructor
  · intro h
    exact absurd (h (by decide +kernel)).2.1 (by decide +kernel)
  · intro h
    exact absurd (h (by decide +kernel)).1 (by decide +kernel)

end FailedCommits

end Turbopump
