import Turbopump.Api.CommitNotices

/-! Storing a local file: the copy command links the file where a write command streams its bytes. -/

namespace Turbopump

open FileStore
open VectorClock (IsVersion)

structure Copy extends Write where
  path : Bytes

/-- A file that is not the store's: it can be linked when it is on the store's device. -/
inductive LocalFile where
  | here (inode : ℕ)
  | elsewhere (content : Bytes)

def LocalFile.content (fs : FileSystem) : LocalFile → Bytes
  | .here inode => (fs.file inode).content
  | .elsewhere content => content

def FileSystem.hardLink (fs : FileSystem) (source : Option LocalFile) (p : Path) : Bool × FileSystem :=
  match source, p.getLast?, fs.dirs.get p.dropLast, fs.dirs.get p, fs.find p with
  | some (.here inode), some name, some _, none, none => (true, fs.link p.dropLast name (some inode))
  | _, _, _, _, _ => (false, fs)

def FileWriter.link (writer : FileWriter) (source : Option LocalFile) (fs : FileSystem) :
    Bool × FileWriter × FileSystem :=
  let (writer, fs) := if writer.inode.isSome then ({ writer with inode := none }, fs.remove writer.path)
    else (writer, fs)
  match fs.hardLink source writer.path with
  | (true, fs) => (true, writer, fs)
  | (false, fs) =>
    let (inode, fs) := fs.openWrite writer.path
    (false, { writer with inode := inode, offset := 0 }, fs)

/-- `do_commit(true)` is a commit that closes: the writer is closed already. -/
def Writestream.copy (T : TurboLib) (hasher : Bytes → Bytes) (w : Writestream) (source : Option LocalFile)
    (fs : FileSystem) : Option Readstream × Writestream × FileSystem :=
  match w.writer.link source fs with
  | (false, writer, fs) => (none, { w with writer := writer }, fs)
  | (true, writer, fs) => { w with writer := writer }.commit T hasher fs true

/-- Whether `write` returns a stream without a writer. -/
def FileStore.declines (T : TurboLib) (host : Host) (fs : FileSystem) (name version : Bytes) : Bool :=
  match VectorClock.fromString T version with
  | .parsed clock => clock ≠ [] && (exists_ fs name version || VectorClock.isExpired clock 604800 host.now)
  | _ => false

inductive CopyOutcome where
  | returned (result : Bool)
  | threw
  | crashed
  deriving DecidableEq

namespace CopyCommand

variable {κ : Type} (T : TurboLib) (hasher : Bytes → Bytes)
  (onCommit : WriteInstructions → Readstream → StoreState κ → WriteInstructions × StoreState κ)

def setStatus (code : ℕ) : CopyOutcome × ℕ := (.returned (code < 400), code)

def run (disk : Bytes → Option LocalFile) (params : Copy) (s : StoreState κ) : (CopyOutcome × ℕ) × StoreState κ :=
  if params.path = [] then (setStatus 400, s)
  else match FileStore.write T s.host s.fs params.name params.version (toUnsignedShort params.copies) with
    | (.threw, fs) => ((.threw, 0), { s with fs := fs })
    | (.refused, fs) =>
      -- `copy` of a stream without a writer; where a file cannot be opened none can be linked
      if declines T s.host s.fs params.name params.version then ((.crashed, 0), { s with fs := fs })
      else (setStatus 500, { s with fs := fs })
    | (.accepted w, fs) => match w.copy T hasher (disk params.path) fs with
      | (none, _, fs) => (setStatus 500, { s with fs := fs })
      | (some reader, _, fs) =>
        let instructions : WriteInstructions :=
          { name := params.name, version := params.version, mirror := params.mirror, copies := params.copies,
            isComplete := true }
        ((.returned true, 0), (onCommit instructions reader { s with fs := fs }).2)

def shown (file : File) : Bytes × ℕ := (file.content, (mdFromString {} file.md).totalCopies)

structure Untouched (s s' : StoreState κ) : Prop where
  lookup : ∀ d nm, s'.fs.lookup d nm = s.fs.lookup d nm
  inodes : s'.fs.inodes = s.fs.inodes
  callbacks : s'.callbacks = s.callbacks

structure Alike (n : Bytes) (s s' : StoreState (List Notice)) : Prop where
  stored : ∀ v, (stored s.fs n v).map shown = (FileStore.stored s'.fs n v).map shown
  told : ∃ notice, s.callbacks.getLast? = some notice ∧ s'.callbacks.getLast? = some notice

/-- The write command is given the request, then the file's bytes in the packets of `data`. -/
structure Equivalent (disk : Bytes → Option LocalFile) (request : Copy) (data : List Bytes)
    (s : StoreState (List Notice)) : Prop where
  accepted : ∀ w fs, FileStore.write T s.host s.fs request.name request.version (toUnsignedShort request.copies) =
    (.accepted w, fs) →
      (run T hasher notice disk request s).1.1 = .returned true ∧
      Alike request.name (run T hasher notice disk request s).2
        (WriteCommand.sent T hasher request.toWrite data s)
  refused : ∀ fs, FileStore.write T s.host s.fs request.name request.version (toUnsignedShort request.copies) =
    (.refused, fs) →
      ((run T hasher notice disk request s).1.1 = .returned false ∧
        Untouched s (run T hasher notice disk request s).2) ∧
      let written := (WriteCommand.create request.toWrite).run (FileStore.env T hasher notice) [] s
      written.1 = .returned false ∧ Untouched s written.2.2

section Linking

variable {T hasher} {n v : Bytes} {k i : ℕ} {fs fs₁ : FileSystem} {w : Writestream} {copies : ℕ}

lemma link_here {writer : FileWriter} {d : Path} {nm : Bytes} (hk : writer.inode = some k)
    (hpath : writer.path = d ++ [nm]) (hlookup : fs.lookup d nm = some k) (hdir : ¬ fs.HasDir (d ++ [nm])) :
    writer.link (some (.here i)) fs =
      (true, { writer with inode := none }, (fs.link d nm none).link d nm (some i)) := by
  have hhas := FileSystem.hasDir_of_lookup hlookup
  obtain ⟨entries, hd⟩ := Option.isSome_iff_exists.1 (FileSystem.hasDir_link.2 hhas :
    (fs.link d nm none).HasDir d)
  have hnodir := FileSystem.not_hasDir.1 (mt FileSystem.hasDir_link.1 hdir :
    ¬ (fs.link d nm none).HasDir (d ++ [nm]))
  have hnone : (fs.link d nm none).lookup d nm = none := by
    rw [FileSystem.lookup_link hhas, if_pos ⟨rfl, rfl⟩]
  have hlink : (fs.link d nm none).hardLink (some (.here i)) (d ++ [nm]) =
      (true, (fs.link d nm none).link d nm (some i)) := by
    simp only [FileSystem.hardLink, List.getLast?_concat, List.dropLast_concat, hd, hnodir, FileSystem.find_concat,
      hnone]
  simp only [FileWriter.link, hk, Option.isSome_some, if_true, hpath, FileSystem.remove_concat, hlink]

lemma link_elsewhere (writer : FileWriter) (fs : FileSystem) {source : Option LocalFile}
    (hsource : ∀ i, source ≠ some (.here i)) : (writer.link source fs).1 = false := by
  have hlink (fs : FileSystem) (p : Path) : fs.hardLink source p = (false, fs) := by
    rcases source with _ | i | content
    · rfl
    · exact absurd rfl (hsource i)
    · rfl
  simp only [FileWriter.link, hlink]

variable (hasher) in
lemma copy_here (hT : T.Base64) (hs : Session T n w) (hk : w.writer.inode = some k)
    (hbegun : Begun T n (w.vstr T) copies fs fs₁ k) (i : ℕ) :
    ∃ fs' gone, KeyDir T fs' n ∧ fs'.inodes = fs₁.inodes ∧
      (∀ nm, fs'.lookup (dirpath n) nm = if w.vstr T ++ [126] = nm then some i else fs.lookup (dirpath n) nm) ∧
      gone.Nodup ∧ Commits T fs' (w.copy T hasher (some (.here i)) fs₁).2.2 n (w.vstr T) i gone ∧
      (w.copy T hasher (some (.here i)) fs₁).1 = some ⟨i, { w.md with
        digest := Writestream.digest hasher (w.vstr T) (fs'.file i).content.length ^^^ xorAll (gone.map fun u =>
          Writestream.digest hasher u
            (if u = w.vstr T then (fs'.file i).content.length else fs'.size (filepath n u))) }⟩ := by
  have hlookup : fs₁.lookup (dirpath n) (w.vstr T ++ [126]) = some k := by rw [hbegun.lookup, if_pos rfl]
  have hhas := FileSystem.hasDir_of_lookup hlookup
  have hlink := link_here (i := i) hk (hs.path.trans (tempname_eq hs.version n)) hlookup
    fun hd => hbegun.keyDir.subdirs _ hd (by simp [hs.version.comma])
  set fs' := (fs₁.link (dirpath n) (w.vstr T ++ [126]) none).link (dirpath n) (w.vstr T ++ [126]) (some i) with hfs'
  have hlookup' (nm : Bytes) : fs'.lookup (dirpath n) nm =
      if w.vstr T ++ [126] = nm then some i else fs.lookup (dirpath n) nm := by
    rw [hfs', FileSystem.lookup_link (FileSystem.hasDir_link.2 hhas), FileSystem.lookup_link hhas, hbegun.lookup]
    by_cases hnm : w.vstr T ++ [126] = nm <;> simp [hnm]
  have hdir : KeyDir T fs' n := by
    refine hbegun.keyDir.mono (fun c hc => FileSystem.hasDir_link.1 (FileSystem.hasDir_link.1 hc)) fun nm l hl => ?_
    rw [hlookup'] at hl
    split_ifs at hl with hnm
    · exact .inr (.inr ⟨_, hs.version, hnm.symm⟩)
    · exact .inl ⟨l, by rw [hbegun.lookup, if_neg hnm, hl]⟩
  have hs' : Session T n { w with writer.inode := none } := ⟨hs.name, hs.version, hs.clock, hs.path⟩
  obtain ⟨gone, hnodup, hcommits, hreader⟩ := @commit_reader T hasher fs' n _ hT hdir hs' i
    (by rw [hlookup']; exact if_pos rfl)
  have hcopy : w.copy T hasher (some (.here i)) fs₁ =
      ({ w with writer.inode := none } : Writestream).commit T hasher fs' true := by
    rw [Writestream.copy, hlink]
  rw [hcopy]
  exact ⟨fs', gone, hdir, by rw [hfs', FileSystem.inodes_link, FileSystem.inodes_link], hlookup', hnodup, hcommits,
    hreader⟩

end Linking

section Closing

variable {T hasher} {n v : Bytes} {k k' : ℕ} {fs fs₁ fs₂ fs' fs₁' fs₂' : FileSystem} {gone gone' : List Bytes}

/-- The file in progress of version `v` is inode `k`; the rest of the key's directory is that of `fs`. -/
structure Pending (T : TurboLib) (n v : Bytes) (fs fs₁ : FileSystem) (k : ℕ) : Prop where
  keyDir : KeyDir T fs₁ n
  lookup : ∀ nm, fs₁.lookup (dirpath n) nm = if v ++ [126] = nm then some k else fs.lookup (dirpath n) nm

lemma Pending.mem_versions (hT : T.Base64) (h : KeyDir T fs n) (hp : Pending T n v fs fs₁ k) (u : Bytes) :
    u ∈ versions fs₁ n false ↔ u ∈ versions fs n false := by
  rw [hp.keyDir.mem_versions hT, h.mem_versions hT]
  refine and_congr_right fun hu => ?_
  rw [hp.lookup, if_neg (temp_ne_version hT hu)]

variable {i : ℕ}

lemma gone_congr (hT : T.Base64) (h : KeyDir T fs n) (hp₁ : Pending T n v fs fs₁ i) (hp₂ : Pending T n v fs fs₂ k)
    (hc₁ : Commits T fs₁ fs₁' n v i gone) (hc₂ : Commits T fs₂ fs₂' n v k gone') (u : Bytes) :
    u ∈ gone ↔ u ∈ gone' := by
  rw [hc₁.gone_iff, hc₂.gone_iff]
  simp only [hp₁.mem_versions hT h, hp₂.mem_versions hT h]

lemma own_gone (hT : T.Base64) (hself : ∀ v, T.compare v v = .equal) (h : KeyDir T fs n)
    (hp : Pending T n v fs fs₁ k) (hc : Commits T fs₁ fs' n v k gone) :
    v ∈ gone ↔ ∃ u ∈ versions fs n false, VectorClock.compareNames T u v = .greaterThan := by
  have hequal : VectorClock.compareNames T v v = .equal := hself _
  simp only [hc.gone_iff, hp.mem_versions hT h, hequal, reduceCtorEq, and_false, true_and, false_or]
  constructor
  · rintro ⟨x, rfl | hx, hgreater⟩
    · rw [hequal] at hgreater
      cases hgreater
    · exact ⟨x, hx, hgreater⟩
  · rintro ⟨x, hx, hgreater⟩
    exact ⟨x, .inr hx, hgreater⟩

structure Paths (T : TurboLib) (n v : Bytes) (fs fs₁ fs₂ : FileSystem) (i k : ℕ) : Prop where
  keyDir : KeyDir T fs n
  version : IsVersion T v
  first : Pending T n v fs fs₁ i
  second : Pending T n v fs fs₂ k
  file : ∀ nm l, nm ≠ v ++ [126] → fs.lookup (dirpath n) nm = some l → fs₁.file l = fs₂.file l

lemma Paths.stored (hT : T.Base64) (h : Paths T n v fs fs₁ fs₂ i k) (u : Bytes) :
    FileStore.stored fs₁ n u = FileStore.stored fs₂ n u := by
  by_cases hu : IsVersion T u
  · have hne := temp_ne_version (v := v) hT hu
    rw [h.first.keyDir.stored_eq hT hu, h.second.keyDir.stored_eq hT hu, h.first.lookup, h.second.lookup, if_neg hne,
      if_neg hne]
    cases hl : fs.lookup (dirpath n) u with
    | none => rfl
    | some l => rw [Option.map_some, Option.map_some, h.file u l (Ne.symm hne) hl]
  · rw [h.first.keyDir.stored_none hT hu, h.second.keyDir.stored_none hT hu]

lemma Paths.size (hT : T.Base64) (h : Paths T n v fs fs₁ fs₂ i k) {u : Bytes} (hu : IsVersion T u) :
    fs₁.size (filepath n u) = fs₂.size (filepath n u) := by
  have hne := temp_ne_version (v := v) hT hu
  simp only [FileSystem.size, filepath_eq hu, FileSystem.find_concat, h.first.lookup, h.second.lookup, if_neg hne]
  cases hl : fs.lookup (dirpath n) u with
  | none => rfl
  | some l => simp only [h.file u l (Ne.symm hne) hl]

lemma Paths.stored_iff (hT : T.Base64) (h : Paths T n v fs fs₁ fs₂ i k) (hc₁ : Commits T fs₁ fs₁' n v i gone)
    (hc₂ : Commits T fs₂ fs₂' n v k gone') :
    (∀ u, (FileStore.stored fs₁' n u).map shown = (FileStore.stored fs₂' n u).map shown) ↔
      v ∈ gone ∨ shown (fs₁.file i) = shown (fs₂.file k) := by
  have hgone := gone_congr hT h.keyDir h.first h.second hc₁ hc₂
  constructor
  · intro hsame
    refine or_iff_not_imp_left.2 fun hv => ?_
    have hown := hsame v
    rw [hc₁.stored hT h.first.keyDir h.version, hc₂.stored hT h.second.keyDir h.version, if_neg hv,
      if_neg (mt (hgone v).2 hv), if_pos rfl, if_pos rfl] at hown
    exact Option.some.inj hown
  · intro hown u
    rw [hc₁.stored hT h.first.keyDir h.version, hc₂.stored hT h.second.keyDir h.version, h.stored hT u]
    by_cases hu : u ∈ gone
    · rw [if_pos hu, if_pos ((hgone u).1 hu)]
    · rw [if_neg hu, if_neg (mt (hgone u).2 hu)]
      by_cases huv : u = v
      · rw [if_pos huv, if_pos huv]
        exact congrArg some (hown.resolve_left (huv ▸ hu))
      · rw [if_neg huv, if_neg huv]

variable (hasher) in
def committed (fs : FileSystem) (n v : Bytes) (k : ℕ) (gone : List Bytes) : UInt64 :=
  Writestream.digest hasher v (fs.file k).content.length ^^^ xorAll (gone.map fun u =>
    Writestream.digest hasher u (if u = v then (fs.file k).content.length else fs.size (filepath n u)))

lemma Paths.committed (hT : T.Base64) (h : Paths T n v fs fs₁ fs₂ i k) (hc₁ : Commits T fs₁ fs₁' n v i gone)
    (hc₂ : Commits T fs₂ fs₂' n v k gone') (hnodup : gone.Nodup) (hnodup' : gone'.Nodup)
    (hown : v ∈ gone ∨ shown (fs₁.file i) = shown (fs₂.file k)) :
    CopyCommand.committed hasher fs₁ n v i gone = CopyCommand.committed hasher fs₂ n v k gone' := by
  have hothers : ∀ u ∈ gone, u ≠ v →
      Writestream.digest hasher u (if u = v then (fs₁.file i).content.length else fs₁.size (filepath n u)) =
        Writestream.digest hasher u (if u = v then (fs₂.file k).content.length else fs₂.size (filepath n u)) := by
    intro u hu huv
    have hversion : IsVersion T u := by
      have hmem : u ∈ versions fs₁ n false := by
        rcases (hc₁.gone_iff u).1 hu with hless | hown
        · exact hless.1.resolve_left huv
        · exact absurd hown.1 huv
      exact ((h.first.keyDir.mem_versions hT).1 hmem).1
    rw [if_neg huv, if_neg huv, h.size hT hversion]
  have hsum := xorAll_own hnodup hnodup' (gone_congr hT h.keyDir h.first h.second hc₁ hc₂) hothers <|
    hown.imp_right fun hshown => by
      have hcontent : (fs₁.file i).content = (fs₂.file k).content := congrArg Prod.fst hshown
      rw [if_pos rfl, if_pos rfl, hcontent]
  rw [CopyCommand.committed, CopyCommand.committed]
  simpa only [if_true] using hsum

end Closing

section Requests

open WriteCommand (flushedLength lastFlush sent)

variable {T hasher} {request : Copy} {source : LocalFile} {disk : Bytes → Option LocalFile} {data : List Bytes}
  {s : StoreState (List Notice)} {w : Writestream} {fs : FileSystem}

variable (T hasher request source) in
/-- The request says what the store opens, the file can be linked and fits between two flushes, and what the link
keeps of it is what a write would make it, unless the version is obsolete anyway. -/
structure AsWritten (fs : FileSystem) (v : Bytes) : Prop where
  name : request.name ≠ []
  version : request.version ≠ []
  flushed : (source.content fs).length ≤ 0x10000 ∨ Writestream.digest hasher v
    (max (flushedLength (source.content fs).length) (leftover fs request.name v).length) = 0
  file : ∃ i, source = .here i ∧ ((∃ u ∈ versions fs request.name false,
    VectorClock.compareNames T u v = .greaterThan) ∨
      (leftover fs request.name v).length ≤ (fs.file i).content.length ∧
      (fs.find (tempname request.name v) = some i ∨
        (mdFromString {} (fs.file i).md).totalCopies = toUnsignedShort request.copies % 256))

lemma refused_files {host : Host} {n version : Bytes} {copies : ℕ} {fs fs' : FileSystem}
    (h : FileStore.write T host fs n version copies = (.refused, fs')) :
    (∀ d nm, fs'.lookup d nm = fs.lookup d nm) ∧ fs'.inodes = fs.inodes := by
  obtain hthrew | hrefused | ⟨clock, hopen⟩ := write_cases T host fs n version copies
  · simp [hthrew] at h
  · obtain ⟨-, rfl⟩ := Prod.mk.inj (hrefused.symm.trans h)
    exact ⟨fun _ _ => rfl, rfl⟩
  · rw [hopen, openVersion] at h
    obtain hno | ⟨_, _, _, _, _, hold⟩ | ⟨_, _, _, _, _, hnew⟩ := FileSystem.openWrite_cases
      (fs.createDirectories (dirpath n)) (tempname n (VectorClock.toString T clock))
    · rw [hno] at h
      obtain ⟨-, rfl⟩ := Prod.mk.inj h
      exact ⟨by simp, rfl⟩
    · simp [hold] at h
    · simp [hnew] at h

lemma write_of_declines {host : Host} {n version : Bytes} {fs : FileSystem}
    (h : declines T host fs n version = true) (copies : ℕ) :
    FileStore.write T host fs n version copies = (.refused, fs) := by
  rw [declines] at h
  split at h
  case h_1 clock hparse =>
    obtain ⟨hne, hold⟩ := Bool.and_eq_true_iff.1 h
    rw [write_parsed hparse (of_decide_eq_true hne), if_pos hold]
  case h_2 => cases h

lemma sent_unnamed {request : Write} (hname : request.name = []) : sent T hasher request data s = s := by
  have hclosed (buffs : List Bytes) (c : WriteCommand Writestream) (hc : c.finished = true) :
      (buffs.foldl (WriteCommand.feed (FileStore.env T hasher notice)) (c, s)).2 = s := by
    induction buffs with
    | nil => rfl
    | cons b buffs ih =>
      have hfeed : WriteCommand.feed (FileStore.env T hasher notice) (c, s) b = (c, s) := by
        rw [WriteCommand.feed, WriteCommand.run, if_pos hc]
      rw [List.foldl_cons, hfeed]
      exact ih
  have hfirst : WriteCommand.feed (FileStore.env T hasher notice) (WriteCommand.create request, s) [] =
      ({ (WriteCommand.create request : WriteCommand Writestream) with finished := true, status := 400 }, s) := by
    simp [WriteCommand.feed, WriteCommand.run, WriteCommand.create, WriteCommand.setStatus, hname]
  rw [sent, List.cons_append, List.foldl_cons, hfirst]
  exact hclosed _ _ rfl

variable (hasher disk) in
lemma refused_iff (hpath : request.path ≠ []) :
    (∀ fs, FileStore.write T s.host s.fs request.name request.version (toUnsignedShort request.copies) =
      (.refused, fs) →
        ((run T hasher notice disk request s).1.1 = .returned false ∧
          Untouched s (run T hasher notice disk request s).2) ∧
        let written := (WriteCommand.create request.toWrite).run (FileStore.env T hasher notice) [] s
        written.1 = .returned false ∧ Untouched s written.2.2) ↔
      declines T s.host s.fs request.name request.version = false := by
  constructor
  · intro h
    by_contra hdeclines
    rw [Bool.not_eq_false] at hdeclines
    have hwrite := write_of_declines hdeclines (toUnsignedShort request.copies)
    obtain ⟨⟨hreturned, -⟩, -⟩ := h _ hwrite
    rw [run, if_neg hpath, hwrite] at hreturned
    simp [hdeclines] at hreturned
  · intro hdeclines fs hwrite
    obtain ⟨hlookup, hinodes⟩ := refused_files hwrite
    have huntouched : Untouched s { s with fs := fs } := ⟨hlookup, hinodes, rfl⟩
    refine ⟨?_, ?_⟩
    · simp only [run, if_neg hpath, hwrite, hdeclines]
      exact ⟨rfl, huntouched⟩
    · by_cases hname : request.name = []
      · simp only [WriteCommand.run, WriteCommand.create, hname, WriteCommand.setStatus]
        exact ⟨rfl, fun _ _ => rfl, rfl, rfl⟩
      · simp only [WriteCommand.run_first [] s hname, FileStore.env, hwrite]
        exact ⟨trivial, huntouched⟩

lemma mdFromString_mdToString (copies : ℕ) :
    (mdFromString {} (mdToString { totalCopies := copies })).totalCopies = copies % 256 :=
  UInt8.toNat_ofNat' ..

lemma shown_iff {n v content : Bytes} {copies i k : ℕ} {fs₁ : FileSystem} {file : File}
    (hbegun : Begun T n v copies s.fs fs₁ k) (hv : IsVersion T v) (hi : i < s.fs.inodes.length)
    (hcontent : (s.fs.file i).content = content)
    (hfile : file.content = content ++ (leftover s.fs n v).drop content.length)
    (hmd : file.md = mdToString { totalCopies := copies }) :
    shown (fs₁.file i) = shown file ↔ (leftover s.fs n v).length ≤ content.length ∧
      (s.fs.find (tempname n v) = some i ∨ (mdFromString {} (s.fs.file i).md).totalCopies = copies % 256) := by
  have hlength : content = content ++ (leftover s.fs n v).drop content.length ↔
      (leftover s.fs n v).length ≤ content.length := by
    rw [eq_comm, List.append_right_eq_self, List.drop_eq_nil_iff]
  have hcopies : (mdFromString {} (fs₁.file i).md).totalCopies = copies % 256 ↔
      s.fs.find (tempname n v) = some i ∨ (mdFromString {} (s.fs.file i).md).totalCopies = copies % 256 := by
    rw [tempname_eq hv, FileSystem.find_concat]
    by_cases hik : i = k
    · have hmine := mdFromString_mdToString copies
      rw [← hbegun.md, ← hik] at hmine
      refine iff_of_true hmine (.inl ?_)
      rcases hbegun.inode with hold | ⟨-, rfl⟩
      · rw [hold, hik]
      · omega
    · rw [hbegun.file i hi hik]
      refine (or_iff_right ?_).symm
      intro htemp
      rcases hbegun.inode with hold | ⟨hnone, -⟩
      · exact hik (Option.some.inj (htemp.symm.trans hold))
      · simp [hnone] at htemp
  rw [shown, shown, Prod.mk.injEq, hbegun.content, hcontent, hfile, hmd, hlength, mdFromString_mdToString, hcopies]

lemma run_elsewhere (hpath : request.path ≠ []) (hsource : disk request.path = some source)
    (hwrite : FileStore.write T s.host s.fs request.name request.version (toUnsignedShort request.copies) =
      (.accepted w, fs)) (helse : ∀ i, source ≠ .here i) :
    (run T hasher notice disk request s).1.1 = .returned false := by
  have helse' (i : ℕ) : disk request.path ≠ some (.here i) := by
    rw [hsource]
    exact fun heq => helse i (Option.some.inj heq)
  have hlink := link_elsewhere w.writer fs helse'
  rcases hanswer : w.writer.link (disk request.path) fs with ⟨linked, writer, fs'⟩
  rw [hanswer] at hlink
  obtain rfl : linked = false := hlink
  simp only [run, if_neg hpath, hwrite, Writestream.copy, hanswer]
  rfl

lemma run_here {i : ℕ} (hpath : request.path ≠ []) (hsource : disk request.path = some (.here i))
    (hwrite : FileStore.write T s.host s.fs request.name request.version (toUnsignedShort request.copies) =
      (.accepted w, fs)) {reader : Readstream} (hreader : (w.copy T hasher (some (.here i)) fs).1 = some reader) :
    run T hasher notice disk request s = ((.returned true, 0),
      { s with
        fs := (w.copy T hasher (some (.here i)) fs).2.2
        callbacks := s.callbacks ++ [⟨request.name, request.version, request.copies, request.mirror, true, 0,
          reader.md.digest⟩] }) := by
  rcases hcopy : w.copy T hasher (some (.here i)) fs with ⟨answer, w', fs'⟩
  rw [hcopy] at hreader
  obtain rfl : answer = some reader := hreader
  simp only [run, if_neg hpath, hwrite, hsource, hcopy]
  rfl

lemma accepted_iff (hT : T.Base64) (hP : T.Printable) (h : Orderly T request.name s) (htold : s.callbacks = [])
    (hpath : request.path ≠ []) (hsource : disk request.path = some source)
    (hinode : ∀ i, source = .here i → i < s.fs.inodes.length) (hdata : ∀ d ∈ data, d ≠ [] ∧ d.length ≤ 0x10000)
    (hbytes : data.flatten = source.content s.fs)
    (hwrite : FileStore.write T s.host s.fs request.name request.version (toUnsignedShort request.copies) =
      (.accepted w, fs)) :
    ((run T hasher notice disk request s).1.1 = .returned true ∧
      Alike request.name (run T hasher notice disk request s).2 (sent T hasher request.toWrite data s)) ↔
      AsWritten T hasher request source s.fs (w.vstr T) := by
  obtain ⟨k, hk, hoffset, hs, hbegun⟩ := h.begun hT hP hwrite
  by_cases hname : request.name = []
  · refine iff_of_false ?_ fun hwritten => hwritten.name hname
    rintro ⟨-, -, last, -, hlast⟩
    rw [sent_unnamed hname, htold] at hlast
    simp at hlast
  by_cases helse : ∀ i, source ≠ .here i
  · refine iff_of_false ?_ fun hwritten => ?_
    · rw [run_elsewhere hpath hsource hwrite helse]
      simp
    · obtain ⟨i, hi, -⟩ := hwritten.file
      exact helse i hi
  obtain ⟨i, hi⟩ := not_forall_not.1 helse
  subst hi
  obtain ⟨fsc, gone, hdirc, hinodesc, hlookupc, hnodup, hcommits, hreader⟩ :=
    copy_here hasher hT hs hk hbegun i
  obtain ⟨c, sw, hstarted, hsent, htelling⟩ := WriteCommand.sent_telling hasher hs hk hoffset hname hwrite hbegun hdata
  obtain ⟨gone', digest, hnodup', hcommits', hdigest, hcalls⟩ := htelling.commit hT
    (List.ne_nil_of_mem hs.version.comma) hstarted
  rw [← hsent] at hcommits' hcalls
  have hpaths : Paths T request.name (w.vstr T) s.fs fsc sw.fs i k :=
    { keyDir := h.keyDir
      version := hs.version
      first := ⟨hdirc, hlookupc⟩
      second := ⟨htelling.keyDir, htelling.lookup⟩
      file := fun nm l hnm hl => by
        have hlk : l ≠ k := by
          rintro rfl
          exact hbegun.apart h hnm hl
        rw [htelling.file l hlk, FileSystem.file, FileSystem.file, hinodesc] }
  have hcontent : (s.fs.file i).content = data.flatten := hbytes.symm
  have hshown := shown_iff hbegun hs.version (hinode i rfl) hcontent htelling.content (htelling.md.trans hbegun.md)
  have hsame : fsc.file i = fs.file i := by rw [FileSystem.file, FileSystem.file, hinodesc]
  rw [← hsame] at hshown
  have hgone := own_gone hT hP.self h.keyDir hpaths.first hcommits
  have hstored := hpaths.stored_iff hT hcommits hcommits'
  rw [hgone, hshown, ← hcontent] at hstored
  have hdigests (hown : w.vstr T ∈ gone ∨ shown (fsc.file i) = shown (sw.fs.file k)) :
      committed hasher fsc request.name (w.vstr T) i gone = digest := by
    rw [hpaths.committed hT hcommits hcommits' hnodup hnodup' hown, committed, htelling.size, hdigest]
  rw [hgone, hshown, ← hcontent] at hdigests
  have hversion : request.version = (if request.version = [] then w.vstr T else request.version) ↔
      request.version ≠ [] := by
    have hne := List.ne_nil_of_mem hs.version.comma
    by_cases hnone : request.version = []
    · simp [hnone, Ne.symm hne]
    · simp [hnone]
  have hflushed : (0 : UInt64) = ((lastFlush data.flatten.length).elim 0 fun m =>
      Writestream.digest hasher (w.vstr T) (max m (leftover s.fs request.name (w.vstr T)).length)) ↔
      (s.fs.file i).content.length ≤ 0x10000 ∨ Writestream.digest hasher (w.vstr T)
        (max (flushedLength (s.fs.file i).content.length) (leftover s.fs request.name (w.vstr T)).length) = 0 := by
    rw [hcontent, lastFlush]
    by_cases hshort : data.flatten.length ≤ 0x10000
    · rw [if_pos hshort]
      exact iff_of_true rfl (.inl hshort)
    · rw [if_neg hshort, or_iff_right hshort]
      exact eq_comm
  rw [run_here hpath hsource hwrite hreader]
  constructor
  · rintro ⟨-, halike⟩
    obtain ⟨last, hlast, hlast'⟩ := halike.told
    rw [List.getLast?_concat] at hlast
    rw [hcalls, List.getLast?_concat] at hlast'
    have heq := Option.some.inj (hlast.trans hlast'.symm)
    rw [Notice.mk.injEq] at heq
    exact ⟨hname, hversion.1 heq.2.1, hflushed.1 heq.2.2.2.2.2.1, i, rfl, hstored.1 halike.stored⟩
  · rintro ⟨-, hnamed, hzero, j, hj, hfile⟩
    obtain rfl : i = j := by simpa using hj
    refine ⟨rfl, hstored.2 hfile, _, List.getLast?_concat, ?_⟩
    rw [hcalls, List.getLast?_concat, Option.some.injEq, Notice.mk.injEq]
    exact ⟨rfl, (hversion.2 hnamed).symm, rfl, rfl, rfl, (hflushed.2 hzero).symm, (hdigests hfile).symm⟩

theorem equivalent_iff (hT : T.Base64) (hP : T.Printable) (h : Orderly T request.name s) (htold : s.callbacks = [])
    (hpath : request.path ≠ []) (hsource : disk request.path = some source)
    (hinode : ∀ i, source = .here i → i < s.fs.inodes.length) (hdata : ∀ d ∈ data, d ≠ [] ∧ d.length ≤ 0x10000)
    (hbytes : data.flatten = source.content s.fs) :
    Equivalent T hasher disk request data s ↔
      declines T s.host s.fs request.name request.version = false ∧
        ∀ w fs, FileStore.write T s.host s.fs request.name request.version (toUnsignedShort request.copies) =
          (.accepted w, fs) → AsWritten T hasher request source s.fs (w.vstr T) := by
  rw [← refused_iff hasher disk hpath]
  constructor
  · rintro ⟨haccepted, hrefused⟩
    refine ⟨hrefused, fun w fs hwrite => ?_⟩
    exact (accepted_iff hT hP h htold hpath hsource hinode hdata hbytes hwrite).1 (haccepted w fs hwrite)
  · rintro ⟨hrefused, haccepted⟩
    refine ⟨fun w fs hwrite => ?_, hrefused⟩
    exact (accepted_iff hT hP h htold hpath hsource hinode hdata hbytes hwrite).2 (haccepted w fs hwrite)

end Requests

section Examples

def kept : StoreState (List Notice) := ⟨{ FileSystem.empty with inodes := [⟨[1, 2], []⟩] }, ⟨ascii "me", 5⟩, []⟩

def firstVersion : Bytes := VectorClock.toString .wrapping [⟨ascii "a", 1, 0⟩]

def copyOf (version : Bytes) : Copy := { name := ascii "k", version := version, path := ascii "/f" }

def onDisk (_ : Bytes) : Option LocalFile := some (.here 0)

def keptVersion : StoreState (List Notice) :=
  { kept with fs.dirs := kept.fs.dirs.insert [ascii "k"] (SortedMap.empty.insert firstVersion 0) }

lemma kept_lookup (d : Path) (nm : Bytes) : kept.fs.lookup d nm = none := by
  by_cases hd : [] = d <;> simp [kept, FileSystem.empty, FileSystem.lookup, SortedMap.get_insert, hd]

lemma kept_find (p : Path) : kept.fs.find p = none := by
  rw [FileSystem.find]
  cases p.getLast? with
  | none => rfl
  | some nm => exact kept_lookup _ nm

lemma kept_orderly (version : Bytes) : Orderly .wrapping (copyOf version).name kept where
  keyDir := ⟨(Vacant.empty {(copyOf version).name}).subdirs _ rfl, by simp [kept_lookup]⟩
  rooted := .empty
  linked := by simp [kept_lookup]
  single := by simp [kept_lookup]
  memberId := by decide +kernel

theorem equivalent_iff_example :
    Equivalent .wrapping id onDisk (copyOf firstVersion) [[1], [2]] kept := by
  have hdata : ∀ d ∈ ([[1], [2]] : List Bytes), d ≠ [] ∧ d.length ≤ 0x10000 := by simp
  refine (equivalent_iff TurboLib.wrapping_base64 TurboLib.wrapping_printable (kept_orderly _) rfl (by decide) rfl
    (by rintro _ ⟨⟩; decide) hdata rfl).2 ⟨by decide +kernel, fun w fs _ => ?_⟩
  have hnone : leftover kept.fs (copyOf firstVersion).name (w.vstr .wrapping) = [] := by
    rw [leftover, kept_find]
  exact ⟨by decide, by decide +kernel, .inl (by decide), 0, rfl, .inr ⟨by simp [hnone], .inr (by decide)⟩⟩

/-- Nothing fills in the version that the callback is told, and a stream without a writer is used. -/
theorem not_equivalent : ¬ Equivalent .wrapping id onDisk (copyOf []) [[1], [2]] kept ∧
    ¬ Equivalent .wrapping id onDisk (copyOf firstVersion) [[1], [2]] keptVersion := by
  refine ⟨fun h => ?_, fun h => ?_⟩
  · have hdata : ∀ d ∈ ([[1], [2]] : List Bytes), d ≠ [] ∧ d.length ≤ 0x10000 := by simp
    obtain ⟨w, fs, hwrite⟩ : ∃ w fs, FileStore.write .wrapping kept.host kept.fs (copyOf []).name (copyOf []).version
        (toUnsignedShort (copyOf []).copies) = (.accepted w, fs) := ⟨_, _, rfl⟩
    have hwritten := (accepted_iff TurboLib.wrapping_base64 TurboLib.wrapping_printable (kept_orderly _) rfl
      (by decide) rfl (by rintro _ ⟨⟩; decide) hdata rfl hwrite).1 (h.accepted w fs hwrite)
    exact hwritten.version rfl
  · have hdeclines := (refused_iff id onDisk (by decide)).1 h.refused
    revert hdeclines
    decide +kernel

end Examples

end CopyCommand

end Turbopump
