import Turbopump.Lib.Runs
import Turbopump.Storage.SimpleDigests

/-! Sessions on one key of the simple store, step by step and in any order. They all write through the one name of the
file in progress, and an open descriptor outlives that name. -/

namespace Turbopump

structure SharedFiles where
  inodes : List StampedFile := []
  current : Option ℕ := none
  deleted : Option ℕ := none
  inprogress : Option ℕ := none
  reserve : Option ℕ := none
  deriving DecidableEq

structure SharedStream where
  inode : ℕ
  stream : SimpleStream
  appended : Bytes := []
  deriving DecidableEq

structure SharedKey where
  files : SharedFiles := {}
  sessions : List SharedStream := []
  deriving DecidableEq

namespace SharedFiles

def file (s : SharedFiles) (name : Option ℕ) : Option StampedFile := name.bind (s.inodes[·]?)

def view (s : SharedFiles) : SimpleFiles :=
  ⟨s.file s.current, s.file s.deleted, s.file s.inprogress, s.file s.reserve⟩

def setModifiedTime (s : SharedFiles) (inode : ℕ) (time : UInt64) : SharedFiles :=
  { s with inodes := s.inodes.modify inode fun file => { file with mtime := time } }

def openInprogress (s : SharedFiles) (now : UInt64) : ℕ × SharedFiles := match s.inprogress with
  | some inode => (inode, s)
  | none => (s.inodes.length, { s with inodes := s.inodes ++ [⟨[], now⟩], inprogress := some s.inodes.length })

def writeAt (s : SharedFiles) (inode offset : ℕ) (now : UInt64) (buff : Bytes) : SharedFiles :=
  { s with inodes := s.inodes.modify inode fun file =>
      if buff = [] then file else ⟨FileSystem.overwrite file.content offset buff, now⟩ }

def onDeleteComplete (s : SharedFiles) (md : KeyMetadata) : SharedFiles :=
  if ¬ SimpleFileStore.testIfVersionGreater md.version s.view.current then { s with inprogress := none }
  else match s.inprogress with
    | none => { s with deleted := none }
    | some inode => { s.setModifiedTime inode (SimpleFileStore.timeFromVersion md.version) with
        current := none, deleted := some inode, inprogress := none }

def onWriteComplete (s : SharedFiles) (md : KeyMetadata) : SharedFiles :=
  if VectorClock.isDeleted md.version then s.onDeleteComplete md
  else if ¬ SimpleFileStore.testIfVersionGreater md.version s.view.deleted then { s with inprogress := none }
  else match s.inprogress with
    | none => { s with current := s.current.or s.reserve, reserve := none }
    | some inode => { s.setModifiedTime inode (SimpleFileStore.timeFromVersion md.version) with
        current := some inode, deleted := none, inprogress := none, reserve := none }

end SharedFiles

namespace SharedKey

variable (T : TurboLib)

inductive Action where
  | write (host : Host) (version : Bytes)
  | append (i : ℕ) (host : Host) (buff : Bytes)
  | commit (i : ℕ)

def write (s : SharedKey) (host : Host) (version : Bytes) : SharedKey :=
  match (SimpleFileStore.write T host s.files.view version).1 with
  | .accepted w =>
    let (inode, files) := s.files.openInprogress host.now
    { files := files, sessions := s.sessions ++ [{ inode := inode, stream := w }] }
  | _ => s

def append (s : SharedKey) (i : ℕ) (host : Host) (buff : Bytes) : SharedKey := match s.sessions[i]? with
  | none => s
  | some session =>
    if session.stream.closed then s
    else { files := s.files.writeAt session.inode session.stream.offset host.now buff,
           sessions := s.sessions.set i { session with
             stream := { session.stream with offset := session.stream.offset + buff.length },
             appended := session.appended ++ buff } }

def commit (s : SharedKey) (i : ℕ) : SharedKey := match s.sessions[i]? with
  | none => s
  | some session =>
    if session.stream.closed then s
    else { files := s.files.onWriteComplete session.stream.md,
           sessions := s.sessions.set i { session with stream := { session.stream with closed := true } } }

def step (s : SharedKey) : Action → SharedKey
  | .write host version => write T s host version
  | .append i host buff => append s i host buff
  | .commit i => commit s i

def content (s : SharedKey) : Option Bytes := s.files.view.current.map StampedFile.content

structure Kept (s after : SharedKey) : Prop where
  current : after.files.current = s.files.current
  content : after.content = s.content

/-- A step leaves the current file and its content as they are, or it is a commit: then the content is what the session
has written, and there is none after a delete. -/
def Faithful (s : SharedKey) (a : Action) : Prop :=
  Kept s (step T s a) ∨ ∃ i session, a = .commit i ∧ s.sessions[i]? = some session ∧
    (content (step T s a) = none ∧ VectorClock.isDeleted session.stream.md.version ∨
      content (step T s a) = some session.appended)

def Alone (s : SharedKey) : Action → Prop
  | .write host version => (∃ w, (SimpleFileStore.write T host s.files.view version).1 = .accepted w) →
      s.files.inprogress = none
  | _ => True

structure Start (s : SharedKey) : Prop where
  sessions : s.sessions = []
  inprogress : s.files.inprogress = none
  current : ∀ inode ∈ s.files.current, inode < s.files.inodes.length
  deleted : ∀ inode ∈ s.files.deleted, inode < s.files.inodes.length
  reserve : ∀ inode ∈ s.files.reserve, inode < s.files.inodes.length

end SharedKey

namespace SharedFiles

def Names (s : SharedFiles) (k : ℕ) : Prop :=
  s.current = some k ∨ s.deleted = some k ∨ s.inprogress = some k ∨ s.reserve = some k

structure Distinct (s : SharedFiles) : Prop where
  range : ∀ k, s.Names k → k < s.inodes.length
  apart : ∀ k ∈ s.inprogress, s.current ≠ some k ∧ s.deleted ≠ some k ∧ s.reserve ≠ some k

variable {s : SharedFiles} {name : Option ℕ} {inode : ℕ}

lemma file_eq_some (h : inode < s.inodes.length) : s.file (some inode) = some s.inodes[inode] :=
    List.getElem?_eq_getElem h

lemma file_modify_of_ne {f : StampedFile → StampedFile} (h : name ≠ some inode) :
    file { s with inodes := s.inodes.modify inode f } name = s.file name := by
  cases name with
  | none => rfl
  | some k =>
    have hne : inode ≠ k := fun heq => h (heq ▸ rfl)
    simp [file, List.getElem?_modify, hne]

lemma file_modify {f : StampedFile → StampedFile} :
    file { s with inodes := s.inodes.modify inode f } (some inode) = (s.file (some inode)).map f := by
  simp [file, List.getElem?_modify]

lemma file_append {new : StampedFile} (h : ∀ k ∈ name, k < s.inodes.length) :
    file { s with inodes := s.inodes ++ [new] } name = s.file name := by
  cases name with
  | none => rfl
  | some k => exact List.getElem?_append_left (h k rfl)

lemma Distinct.view_onWriteComplete (h : s.Distinct) (T : TurboLib) (hasher : Bytes → Bytes) (md : KeyMetadata) :
    (s.onWriteComplete md).view = (SimpleFileStore.onWriteComplete T hasher s.view md).2.2 := by
  cases hin : s.inprogress with
  | none =>
    have hview : s.view.inprogress = none := by simp [view, hin, file]
    have hor : s.file (s.current.or s.reserve) = s.view.current.or s.view.reserve := by
      cases hcurrent : s.current with
      | none => simp [view, hcurrent, file]
      | some k => rw [Option.some_or, view, hcurrent, file_eq_some (h.range k (.inl hcurrent)), Option.some_or]
    simp only [onWriteComplete, onDeleteComplete, SimpleFileStore.onWriteComplete,
      SimpleFileStore.onDeleteComplete, hin,
      hview]
    split_ifs
    · rfl
    · rfl
    · rw [← hor]
      rfl
    · rfl
  | some inode =>
    have hlt := h.range inode (.inr (.inr (.inl hin)))
    have hview : s.view.inprogress = some s.inodes[inode] := (congrArg s.file hin).trans (file_eq_some hlt)
    have hnew (time : UInt64) := @file_modify s inode fun file => { file with mtime := time }
    have hreserve (time : UInt64) := @file_modify_of_ne s s.reserve inode (fun file => { file with mtime := time })
      (h.apart inode hin).2.2
    simp only [onWriteComplete, onDeleteComplete, SimpleFileStore.onWriteComplete,
      SimpleFileStore.onDeleteComplete, hin,
      hview]
    split_ifs
    · rw [view, SimpleFiles.mk.injEq]
      exact ⟨rfl, (hnew _).trans (by rw [file_eq_some hlt]; rfl), rfl, hreserve _⟩
    · rfl
    · rw [view, SimpleFiles.mk.injEq]
      exact ⟨(hnew _).trans (by rw [file_eq_some hlt]; rfl), rfl, rfl, rfl⟩
    · rfl

lemma onWriteComplete_names (md : KeyMetadata) : (s.onWriteComplete md).inprogress = none ∧
    (s.onWriteComplete md).inodes.length = s.inodes.length ∧ ∀ k, (s.onWriteComplete md).Names k → s.Names k := by
  cases hin : s.inprogress with
  | none =>
    simp only [onWriteComplete, onDeleteComplete, hin, Names]
    split_ifs <;> simp <;> tauto
  | some inode =>
    simp only [onWriteComplete, onDeleteComplete, hin, Names]
    split_ifs <;> simp [setModifiedTime] <;> tauto

lemma Distinct.onWriteComplete (h : s.Distinct) (md : KeyMetadata) : (s.onWriteComplete md).Distinct := by
  obtain ⟨hnone, hlength, hnames⟩ := @onWriteComplete_names s md
  refine ⟨fun k hk => hlength ▸ h.range k (hnames k hk), fun k hk => ?_⟩
  rw [hnone] at hk
  exact absurd hk (by simp)

lemma onWriteComplete_content (md : KeyMetadata) (name : Option ℕ) :
    ((s.onWriteComplete md).file name).map StampedFile.content = (s.file name).map StampedFile.content := by
  have htime (inode : ℕ) (time : UInt64) :
      ((s.setModifiedTime inode time).file name).map StampedFile.content = (s.file name).map StampedFile.content := by
    by_cases hname : name = some inode
    · rw [hname, setModifiedTime, file_modify, Option.map_map]
      rfl
    · rw [setModifiedTime, file_modify_of_ne hname]
  cases hin : s.inprogress with
  | none =>
    simp only [onWriteComplete, onDeleteComplete, hin]
    split_ifs <;> rfl
  | some inode =>
    simp only [onWriteComplete, onDeleteComplete, hin]
    split_ifs
    · exact htime inode _
    · rfl
    · exact htime inode _
    · rfl

lemma onWriteComplete_current (md : KeyMetadata) (hin : s.inprogress = some inode) :
    (s.onWriteComplete md).current = s.current ∨
      (s.onWriteComplete md).current = none ∧ VectorClock.isDeleted md.version ∨
      (s.onWriteComplete md).current = some inode := by
  simp only [onWriteComplete, onDeleteComplete, hin]
  split_ifs with hdeleted
  · exact .inr (.inl ⟨rfl, hdeleted⟩)
  · exact .inl rfl
  · exact .inr (.inr rfl)
  · exact .inl rfl

end SharedFiles

namespace SharedKey

structure Holds (s : SharedFiles) (session : SharedStream) : Prop where
  inprogress : s.inprogress = some session.inode
  offset : session.stream.offset = session.appended.length
  content : (s.file (some session.inode)).map StampedFile.content = some session.appended

structure Sole (s : SharedKey) : Prop where
  files : s.files.Distinct
  holds : ∃ k, ∀ (j : ℕ) (session : SharedStream), s.sessions[j]? = some session → session.stream.closed = false →
    j = k ∧ Holds s.files session

variable {T : TurboLib} {s : SharedKey}

lemma Start.sole (h : Start s) : Sole s where
  files := by
    refine ⟨fun k hk => ?_, fun k hk => ?_⟩
    · rcases hk with hk | hk | hk | hk
      · exact h.current k hk
      · exact h.deleted k hk
      · rw [h.inprogress] at hk
        exact absurd hk (by simp)
      · exact h.reserve k hk
    · rw [h.inprogress] at hk
      exact absurd hk (by simp)
  holds := ⟨0, fun j session hj => by simp [h.sessions] at hj⟩

lemma write_stream {host : Host} {files : SimpleFiles} {version : Bytes} {w : SimpleStream}
    (h : (SimpleFileStore.write T host files version).1 = .accepted w) : w.offset = 0 ∧ w.closed = false := by
  have hopen {clock : VectorClock} (h : (SimpleFileStore.openVersion T host files clock).1 = .accepted w) :
      w.offset = 0 ∧ w.closed = false := by
    rw [SimpleFileStore.openVersion] at h
    split at h
    · simp at h
    · obtain rfl := StoreAnswer.accepted.inj h
      exact ⟨rfl, rfl⟩
  rw [SimpleFileStore.write] at h
  split at h
  · simp at h
  · exact hopen h
  · exact hopen h

lemma Sole.write (h : Sole s) {host : Host} {version : Bytes} (halone : Alone T s (.write host version)) :
    Sole (write T s host version) ∧ Kept s (SharedKey.write T s host version) := by
  rw [SharedKey.write]
  cases hw : (SimpleFileStore.write T host s.files.view version).1 with
  | refused => exact ⟨h, rfl, rfl⟩
  | threw => exact ⟨h, rfl, rfl⟩
  | accepted w =>
    have hnone := halone ⟨w, hw⟩
    obtain ⟨hoffset, -⟩ := write_stream hw
    have hopen : s.files.openInprogress host.now = (s.files.inodes.length,
        { s.files with inodes := s.files.inodes ++ [⟨[], host.now⟩], inprogress := some s.files.inodes.length }) := by
      rw [SharedFiles.openInprogress, hnone]
    have hnew (name : Option ℕ) (hname : ∀ k, name = some k → s.files.Names k) : name ≠ some s.files.inodes.length :=
      fun heq => absurd (h.files.range _ (hname _ heq)) (lt_irrefl _)
    simp only [hopen]
    refine ⟨⟨⟨fun k hk => ?_, fun k hk => ?_⟩, s.sessions.length, fun j session hj hclosed => ?_⟩, ?_⟩
    · rw [List.length_append]
      rcases hk with hk | hk | hk | hk
      · exact Nat.lt_succ_of_lt (h.files.range k (.inl hk))
      · exact Nat.lt_succ_of_lt (h.files.range k (.inr (.inl hk)))
      · obtain rfl := Option.some.inj hk
        exact Nat.lt_succ_self _
      · exact Nat.lt_succ_of_lt (h.files.range k (.inr (.inr (.inr hk))))
    · obtain rfl := Option.some.inj hk
      exact ⟨hnew _ fun k hk => .inl hk, hnew _ fun k hk => .inr (.inl hk), hnew _ fun k hk => .inr (.inr (.inr hk))⟩
    · by_cases hlt : j < s.sessions.length
      · -- an older session that is open would have the file in progress
        obtain ⟨k, hk⟩ := h.holds
        rw [List.getElem?_append_left hlt] at hj
        have := (hk j session hj hclosed).2.inprogress
        rw [hnone] at this
        exact absurd this (by simp)
      · rw [List.getElem?_append_right (not_lt.1 hlt), List.getElem?_singleton] at hj
        split_ifs at hj with hzero
        obtain rfl := Option.some.inj hj
        refine ⟨by omega, rfl, hoffset, ?_⟩
        simp [SharedFiles.file]
    · have hcurrent := @SharedFiles.file_append s.files s.files.current ⟨[], host.now⟩ fun k hk =>
        h.files.range k (.inl hk)
      exact ⟨rfl, congrArg (Option.map StampedFile.content) hcurrent⟩

lemma Sole.append (h : Sole s) (i : ℕ) (host : Host) (buff : Bytes) :
    Sole (append s i host buff) ∧ Kept s (SharedKey.append s i host buff) := by
  rw [SharedKey.append]
  cases hsession : s.sessions[i]? with
  | none => exact ⟨h, rfl, rfl⟩
  | some session =>
    by_cases hclosed : session.stream.closed = true
    · simp only [if_pos hclosed]
      exact ⟨h, rfl, rfl⟩
    · simp only [if_neg hclosed]
      obtain ⟨k, hk⟩ := h.holds
      obtain ⟨rfl, hin, hoffset, hcontent⟩ := hk i session hsession (by simpa using hclosed)
      have hlength : (s.files.writeAt session.inode session.stream.offset host.now buff).inodes.length =
          s.files.inodes.length := List.length_modify _ _ _
      refine ⟨⟨⟨fun k hk => hlength ▸ h.files.range k hk, h.files.apart⟩, i, fun j other hj hopen => ?_⟩, ?_⟩
      · rw [List.getElem?_set] at hj
        split_ifs at hj with hij
        · obtain rfl := Option.some.inj hj
          refine ⟨hij.symm, hin, by rw [List.length_append, hoffset], ?_⟩
          obtain ⟨file, hfile, hsame⟩ := Option.map_eq_some_iff.1 hcontent
          rw [SharedFiles.writeAt, SharedFiles.file_modify, hfile, Option.map_some, Option.map_some, hoffset, ← hsame]
          by_cases hbuff : buff = []
          · simp [hbuff]
          · simp [hbuff, FileSystem.overwrite_end]
        · exact absurd (hk j other hj hopen).1.symm hij
      · have hcurrent := @SharedFiles.file_modify_of_ne s.files s.files.current session.inode
          (fun file => if buff = [] then file else
            ⟨FileSystem.overwrite file.content session.stream.offset buff, host.now⟩) (h.files.apart _ hin).1
        exact ⟨rfl, congrArg (Option.map StampedFile.content) hcurrent⟩

lemma Sole.commit (h : Sole s) (i : ℕ) : Sole (commit s i) ∧ Faithful T s (.commit i) := by
  rw [Faithful, step, SharedKey.commit]
  cases hsession : s.sessions[i]? with
  | none => exact ⟨h, .inl ⟨rfl, rfl⟩⟩
  | some session =>
    by_cases hclosed : session.stream.closed = true
    · simp only [if_pos hclosed]
      exact ⟨h, .inl ⟨rfl, rfl⟩⟩
    · simp only [if_neg hclosed]
      obtain ⟨k, hk⟩ := h.holds
      obtain ⟨rfl, hin, hoffset, hcontent⟩ := hk i session hsession (by simpa using hclosed)
      refine ⟨⟨h.files.onWriteComplete _, i, fun j other hj hopen => ?_⟩, ?_⟩
      · rw [List.getElem?_set] at hj
        split_ifs at hj with hij
        · obtain rfl := Option.some.inj hj
          exact absurd hopen (by simp)
        · exact absurd (hk j other hj hopen).1.symm hij
      · have hsame := @SharedFiles.onWriteComplete_content s.files session.stream.md
        rcases SharedFiles.onWriteComplete_current session.stream.md hin with heq | ⟨hnone, hdeleted⟩ | hnew
        · refine .inl ⟨heq, (congrArg (fun name => (SharedFiles.file _ name).map StampedFile.content) heq).trans ?_⟩
          exact hsame s.files.current
        · refine .inr ⟨i, session, rfl, hsession, .inl ⟨?_, hdeleted⟩⟩
          exact congrArg (fun name => (SharedFiles.file _ name).map StampedFile.content) hnone
        · refine .inr ⟨i, session, rfl, hsession, .inr ?_⟩
          refine (congrArg (fun name => (SharedFiles.file _ name).map StampedFile.content) hnew).trans ?_
          exact (hsame (some session.inode)).trans hcontent

lemma Sole.step (h : Sole s) {a : Action} (halone : Alone T s a) : Sole (step T s a) ∧ Faithful T s a := by
  cases a with
  | write host version => exact (h.write halone).imp_right Or.inl
  | append i host buff => exact (h.append i host buff).imp_right Or.inl
  | commit i => exact h.commit i

theorem run_faithful (hs : Start s) {actions : List Action} (h : Along (step T) (Alone T) s actions) :
    Along (step T) (Faithful T) s actions := by
  have hsole := hs.sole
  clear hs
  induction actions generalizing s with
  | nil => trivial
  | cons a actions ih =>
    obtain ⟨hnext, hfaithful⟩ := hsole.step h.1
    exact ⟨hfaithful, ih h.2 hnext⟩

section Examples

def writeAt (time : UInt64) : Action :=
  .write ⟨[], time⟩ (VectorClock.toString TurboLib.reference [⟨ascii "sec", time, 0⟩])

theorem run_faithful_example : Along (step TurboLib.reference) (Faithful TurboLib.reference) {}
    [writeAt 1, .append 0 ⟨[], 1⟩ [97], .commit 0, writeAt 2, .append 1 ⟨[], 2⟩ [98], .commit 1] := by
  refine run_faithful ⟨rfl, rfl, by simp, by simp, by simp⟩ ⟨fun _ => rfl, trivial, trivial, fun _ => ?_, trivial,
    trivial, trivial⟩
  decide +kernel

theorem not_faithful_when_joined : ¬ Along (step TurboLib.reference) (Faithful TurboLib.reference) {}
    [writeAt 1, .append 0 ⟨[], 1⟩ [97], writeAt 2, .commit 0, .append 1 ⟨[], 3⟩ [98]] := by
  rintro ⟨-, -, -, -, hlast, -⟩
  rcases hlast with ⟨-, hsame⟩ | ⟨i, session, haction, -⟩
  · exact absurd hsame (by decide +kernel)
  · exact absurd haction (by simp)

end Examples

end SharedKey

end Turbopump
