import Turbopump.Api.StreamedWrite

/-! What a write command tells its callback when it commits: the request, the version, and the digests of its last two
flushes. -/

namespace Turbopump

open FileStore

/-- What a callback is told: by the instructions, and as the digest of the reader. -/
structure Notice where
  name : Bytes
  version : Bytes
  copies : ℤ
  mirror : ℤ
  isComplete : Bool
  digest : UInt64
  contents : UInt64
  deriving DecidableEq

def notice (params : WriteInstructions) (reader : Readstream) (s : StoreState (List Notice)) :
    WriteInstructions × StoreState (List Notice) :=
  (params, { s with callbacks := s.callbacks ++ [⟨params.name, params.version, params.copies, params.mirror,
    params.isComplete, params.digest, reader.md.digest⟩] })

namespace FileStore

/-- What is relied on of a store: the key's directory holds versions, one in progress has no second name there, and
the store's own id ends nothing. -/
structure Orderly {κ : Type} (T : TurboLib) (n : Bytes) (s : StoreState κ) : Prop where
  keyDir : KeyDir T s.fs n
  rooted : s.fs.Rooted
  linked : ∀ nm k, s.fs.lookup (dirpath n) nm = some k → k < s.fs.inodes.length
  single : ∀ v nm k, s.fs.lookup (dirpath n) (v ++ [126]) = some k → s.fs.lookup (dirpath n) nm = some k →
    nm = v ++ [126]
  memberId : ∀ b ∈ s.host.memberId, isPlain b

structure Begun (T : TurboLib) (n v : Bytes) (copies : ℕ) (fs fs₁ : FileSystem) (k : ℕ) : Prop where
  keyDir : KeyDir T fs₁ n
  linked : k < fs₁.inodes.length
  lookup : ∀ nm, fs₁.lookup (dirpath n) nm = if v ++ [126] = nm then some k else fs.lookup (dirpath n) nm
  inode : fs.lookup (dirpath n) (v ++ [126]) = some k ∨
    fs.lookup (dirpath n) (v ++ [126]) = none ∧ k = fs.inodes.length
  md : (fs₁.file k).md = mdToString { totalCopies := copies }
  file : ∀ l < fs.inodes.length, l ≠ k → fs₁.file l = fs.file l
  content : ∀ l, (fs₁.file l).content = (fs.file l).content

section Opening

variable {κ : Type} {T : TurboLib} {n : Bytes} {fs : FileSystem} {s : StoreState κ}

lemma openVersion_file {clock : VectorClock} {copies k : ℕ} {fs' : FileSystem} {w : Writestream}
    (hopen : openVersion T fs n clock copies = (.accepted w, fs')) (hk : w.writer.inode = some k)
    (hlinked : k < fs'.inodes.length) : (fs'.file k).md = mdToString { totalCopies := copies } ∧
      ∀ l < fs.inodes.length, l ≠ k → fs'.file l = fs.file l := by
  rw [openVersion] at hopen
  obtain hno | ⟨d, nm, l, -, -, hold⟩ | ⟨d, nm, -, -, -, hnew⟩ := FileSystem.openWrite_cases
    (fs.createDirectories (dirpath n)) (tempname n (VectorClock.toString T clock))
  · simp [hno] at hopen
  · rw [hold] at hopen
    obtain ⟨hw, rfl⟩ := Prod.mk.inj hopen
    obtain rfl := StoreAnswer.accepted.inj hw
    obtain rfl := Option.some.inj hk
    rw [FileSystem.setAttribute, List.length_modify] at hlinked
    refine ⟨by rw [FileSystem.file_setAttribute _ hlinked]; rfl, fun x _ hx => ?_⟩
    rw [FileSystem.file_setAttribute_of_ne _ (Ne.symm hx)]
    rfl
  · rw [hnew] at hopen
    obtain ⟨hw, rfl⟩ := Prod.mk.inj hopen
    obtain rfl := StoreAnswer.accepted.inj hw
    obtain rfl := Option.some.inj hk
    rw [FileSystem.setAttribute, List.length_modify] at hlinked
    refine ⟨by rw [FileSystem.file_setAttribute _ hlinked]; rfl, fun x hlt hx => ?_⟩
    rw [FileSystem.file_setAttribute_of_ne _ (Ne.symm hx)]
    simp [FileSystem.file, List.getElem?_append_left hlt]

lemma Orderly.begun (hT : T.Base64) (hP : T.Printable) (h : Orderly T n s) {version : Bytes} {copies : ℕ}
    {w : Writestream} {fs₁ : FileSystem}
    (hwrite : FileStore.write T s.host s.fs n version copies = (.accepted w, fs₁)) :
    ∃ k, w.writer.inode = some k ∧ w.writer.offset = 0 ∧ Session T n w ∧
      Begun T n (w.vstr T) copies s.fs fs₁ k := by
  obtain ⟨hdir, -, hsession⟩ := h.keyDir.write hT hP h.rooted h.memberId version copies
  obtain ⟨hno, -⟩ | ⟨clock, k, fs', heq, -, hopens, -⟩ :=
    h.keyDir.write_opens hT hP h.rooted s.host h.memberId version copies
  · rw [hwrite] at hno
    exact absurd rfl (hno w)
  have hfile {k : ℕ} (hk : w.writer.inode = some k) (hlinked : k < fs₁.inodes.length) :
      (fs₁.file k).md = mdToString { totalCopies := copies } ∧
        ∀ l < s.fs.inodes.length, l ≠ k → fs₁.file l = s.fs.file l := by
    obtain hthrew | hrefused | ⟨clock, hopen⟩ := write_cases T s.host s.fs n version copies
    · simp [hthrew] at hwrite
    · simp [hrefused] at hwrite
    · exact openVersion_file (hopen.symm.trans hwrite) hk hlinked
  have hold (l : ℕ) := h.keyDir.inode_of_write (k := l) hwrite
  rw [hwrite] at hdir hsession heq
  obtain ⟨hw, rfl⟩ := Prod.mk.inj heq
  obtain rfl := StoreAnswer.accepted.inj hw
  have hlinked : k < fs₁.inodes.length := by
    rcases hopens.inode with hold | ⟨rfl, hlength⟩
    · exact (h.linked _ _ hold).trans_le hopens.length
    · rw [hlength]
      exact Nat.lt_succ_self _
  obtain ⟨hmd, hothers⟩ := hfile rfl hlinked
  refine ⟨k, rfl, rfl, hsession _ rfl, hdir, hlinked, hopens.lookup, ?_, hmd, hothers, hopens.content⟩
  cases hlookup : s.fs.lookup (dirpath n) (VectorClock.toString T clock ++ [126]) with
  | some l => exact .inl (hlookup.trans (hold l (hsession _ rfl) hlookup).symm)
  | none => exact .inr ⟨hlookup, (hopens.inode.resolve_left (by simp [hlookup])).1⟩

lemma Begun.apart {v nm : Bytes} {copies k : ℕ} {fs₁ : FileSystem} (h : Orderly T n s)
    (hbegun : Begun T n v copies s.fs fs₁ k) (hnm : nm ≠ v ++ [126]) : s.fs.lookup (dirpath n) nm ≠ some k := by
  intro hk
  rcases hbegun.inode with hold | ⟨-, rfl⟩
  · exact hnm (h.single v nm k hold hk)
  · exact absurd (h.linked nm _ hk) (lt_irrefl _)

lemma Begun.content_eq {v : Bytes} {copies k : ℕ} {fs₁ : FileSystem} (h : Begun T n v copies fs fs₁ k)
    (hv : VectorClock.IsVersion T v) : (fs₁.file k).content = leftover fs n v := by
  rw [h.content, leftover, tempname_eq hv, FileSystem.find_concat]
  rcases h.inode with hold | ⟨hnone, rfl⟩
  · rw [hold]
  · rw [hnone, file_default le_rfl]

end Opening

end FileStore

namespace WriteCommand

variable (T : TurboLib) (hasher : Bytes → Bytes) in
def sent (request : Write) (data : List Bytes) (s : StoreState (List Notice)) : StoreState (List Notice) :=
  (([] :: data ++ [[]]).foldl (feed (FileStore.env T hasher notice)) (create request, s)).2

section Notices

variable {T : TurboLib} {hasher : Bytes → Bytes} {request : Write} {v old body : Bytes} {k : ℕ}
  {flushed : Option ℕ} {fs₀ fs₁ : FileSystem} {c : WriteCommand Writestream} {s : StoreState (List Notice)}

/-- The stream, with what its callback will be told. The other files are those of `fs₁`. -/
structure Telling (T : TurboLib) (hasher : Bytes → Bytes) (request : Write) (v old : Bytes) (k : ℕ)
    (fs₀ fs₁ : FileSystem) (body : Bytes) (flushed : Option ℕ) (c : WriteCommand Writestream)
    (s : StoreState (List Notice)) : Prop extends Streaming T request.name v old body k fs₀ c s where
  file : ∀ l ≠ k, s.fs.file l = fs₁.file l
  md : (s.fs.file k).md = (fs₁.file k).md
  name : c.instructions.name = request.name
  version : c.instructions.version = request.version ∨ request.version = [] ∧ c.instructions.version = v
  copies : c.instructions.copies = request.copies
  mirror : c.instructions.mirror = request.mirror
  digest : c.instructions.digest = flushed.elim 0 fun m => Writestream.digest hasher v (max m old.length)

lemma Telling.append (h : Telling T hasher request v old k fs₀ fs₁ body flushed c s) (buff : Bytes) :
    Telling T hasher request v old k fs₀ fs₁ (body ++ buff) flushed
      (c.append (FileStore.env T hasher notice) buff s).1 (c.append (FileStore.env T hasher notice) buff s).2 := by
  have hstream := (h.toStreaming.append hasher notice buff).2
  obtain ⟨w, hw, hs, hv, hinode, hoffset⟩ := h.writer
  have happend : c.append (FileStore.env T hasher notice) buff s =
      ({ c with writer := some { w with writer.offset := w.writer.offset + buff.length } },
        { s with fs := s.fs.writeAt k w.writer.offset buff }) := by
    simp only [WriteCommand.append, hw, FileStore.env, Writestream.write, hinode]
  rw [happend] at hstream ⊢
  exact {
    toStreaming := hstream
    file := fun l hl => (FileSystem.file_writeAt_of_ne _ _ (Ne.symm hl)).trans (h.file l hl)
    md := (congrArg File.md (FileSystem.file_writeAt _ _ h.linked)).trans h.md
    name := h.name
    version := h.version
    copies := h.copies
    mirror := h.mirror
    digest := h.digest }

lemma Telling.size (h : Telling T hasher request v old k fs₀ fs₁ body flushed c s) :
    (s.fs.file k).content.length = max body.length old.length := by
  rw [h.content, List.length_append, List.length_drop]
  omega

lemma passed_same {σ ω ρ : Type} (E : WriteEnv σ ω ρ) (c : WriteCommand ω) (reader : ρ) :
    (passed E c reader).name = c.instructions.name ∧ (passed E c reader).copies = c.instructions.copies ∧
      (passed E c reader).mirror = c.instructions.mirror ∧ (passed E c reader).digest = c.instructions.digest := by
  rw [passed]
  split_ifs
  · exact ⟨rfl, rfl, rfl, rfl⟩
  · exact ⟨rfl, rfl, rfl, rfl⟩

lemma flush_passed {σ ω ρ : Type} {E : WriteEnv σ ω ρ} {c : WriteCommand ω} {w w' : ω} {reader : ρ} {s s' : σ}
    (hw : c.writer = some w) (hcommit : E.commit w c.instructions.isComplete s = (some reader, w', s')) :
    c.flush E s = (true,
      { c with
        instructions := { (E.onCommit (passed E c reader) reader s').1 with
          digest := E.digest reader
          offset := (E.position w').getD (E.onCommit (passed E c reader) reader s').1.offset }
        writer := some w'
        bytesSinceLastFlush := 0 },
      (E.onCommit (passed E c reader) reader s').2) := by
  simp only [WriteCommand.flush, hw, hcommit]
  rfl

lemma Telling.told (h : Telling T hasher request v old k fs₀ fs₁ body flushed c s) (hne : v ≠ []) {reader : Readstream}
    (hreader : VectorClock.toString T reader.md.version = v) {c' : WriteCommand Writestream}
    (hc : c'.instructions.version = c.instructions.version) :
    (passed (FileStore.env T hasher notice) c' reader).version =
      if request.version = [] then v else request.version := by
  have hversion := h.version
  rw [← hc] at hversion
  rw [passed]
  rcases hversion with hsame | ⟨hnone, hset⟩
  · rw [hsame]
    split_ifs
    · exact hreader
    · exact hsame
  · rw [if_pos hnone, hset, if_neg hne]
    exact hset

lemma Telling.flush (h : Telling T hasher request v old k fs₀ fs₁ body flushed c s) (hne : v ≠ []) :
    (c.flush (FileStore.env T hasher notice) s).1 = true ∧
      Telling T hasher request v old k fs₀ fs₁ body (some body.length) (c.flush (FileStore.env T hasher notice) s).2.1
        (c.flush (FileStore.env T hasher notice) s).2.2 := by
  have hfs : ∀ params reader s, (notice params reader s).2.fs = s.fs := fun _ _ _ => rfl
  obtain ⟨hgood, -, hstream⟩ := h.toStreaming.flush hasher hfs fun _ _ _ hc => hc
  refine ⟨hgood, ?_⟩
  obtain ⟨w, hw, hs, hv, -⟩ := h.writer
  obtain ⟨reader, w', hdo, hversion, hdigest⟩ : ∃ reader w',
      (FileStore.env T hasher notice).commit w c.instructions.isComplete s = (some reader, w', s) ∧
      VectorClock.toString T reader.md.version = v ∧
      reader.md.digest = Writestream.digest hasher v (s.fs.file k).content.length := by
    simp only [FileStore.env, h.incomplete, Writestream.commit, h.find hs hv, Bool.false_eq_true, if_false]
    exact ⟨_, _, rfl, hv, by rw [← hv]; rfl⟩
  obtain ⟨hname, hcopies, hmirror, -⟩ := passed_same (FileStore.env T hasher notice) c reader
  have htold := h.told hne hversion rfl
  rw [flush_passed hw hdo] at hstream ⊢
  exact {
    toStreaming := hstream
    file := h.file
    md := h.md
    name := hname.trans h.name
    version := by
      by_cases hnone : request.version = []
      · exact .inr ⟨hnone, htold.trans (if_pos hnone)⟩
      · exact .inl (htold.trans (if_neg hnone))
    copies := hcopies.trans h.copies
    mirror := hmirror.trans h.mirror
    digest := hdigest.trans (by rw [h.size]; rfl) }

variable (T hasher request v old k fs₀ fs₁) in
lemma telling_keeps (hne : v ≠ []) :
    Keeps (FileStore.env T hasher notice) (Telling T hasher request v old k fs₀ fs₁) where
  finished h := h.finished
  touch h hfinished hstatus hwriter hinstructions :=
    { toStreaming := h.toStreaming.touch hfinished hstatus hwriter hinstructions
      file := h.file
      md := h.md
      name := hinstructions ▸ h.name
      version := hinstructions ▸ h.version
      copies := hinstructions ▸ h.copies
      mirror := hinstructions ▸ h.mirror
      digest := hinstructions ▸ h.digest }
  append buff h := h.append buff
  flush h := h.flush hne

lemma Telling.commit (hT : T.Base64) (h : Telling T hasher request v old k fs₀ fs₁ body flushed c s) (hne : v ≠ [])
    (hstarted : c.started = true) :
    ∃ gone digest, gone.Nodup ∧
      Commits T s.fs (feed (FileStore.env T hasher notice) (c, s) []).2.fs request.name v k gone ∧
      digest = Writestream.digest hasher v (max body.length old.length) ^^^ xorAll (gone.map fun u =>
        Writestream.digest hasher u
          (if u = v then max body.length old.length else s.fs.size (filepath request.name u))) ∧
      (feed (FileStore.env T hasher notice) (c, s) []).2.callbacks = s.callbacks ++ [⟨request.name,
        if request.version = [] then v else request.version, request.copies, request.mirror, true,
        flushed.elim 0 fun m => Writestream.digest hasher v (max m old.length), digest⟩] := by
  obtain ⟨w, hw, hs, hv, -⟩ := h.writer
  have hk : s.fs.lookup (dirpath request.name) (w.vstr T ++ [126]) = some k := by
    rw [hv, h.lookup, if_pos rfl]
  obtain ⟨gone, hnodup, hcommits, hreader⟩ := @commit_reader T hasher s.fs request.name w hT h.keyDir hs k hk
  rw [hv] at hcommits
  rw [hv, h.size] at hreader
  generalize hdigest : Writestream.digest hasher v (max body.length old.length) ^^^ xorAll (gone.map fun u =>
    Writestream.digest hasher u
      (if u = v then max body.length old.length else s.fs.size (filepath request.name u))) = digest at hreader
  set reader : Readstream := ⟨k, { w.md with digest := digest }⟩ with hset
  have hdo : (FileStore.env T hasher notice).commit w true s =
      (some reader, (w.commit T hasher s.fs true).2.1, { s with fs := (w.commit T hasher s.fs true).2.2 }) := by
    rw [← hreader]
    rfl
  have hrun : feed (FileStore.env T hasher notice) (c, s) [] = (c.commit (FileStore.env T hasher notice) s).2 := by
    rw [feed, run, h.finished, if_neg Bool.false_ne_true, hstarted, if_pos rfl, proceed, if_pos rfl, hstarted,
      if_pos rfl]
  obtain ⟨c₁, hc₁⟩ : ∃ c₁, c₁ = { c with finished := true, instructions.isComplete := true } := ⟨_, rfl⟩
  have hflush : c₁.flush (FileStore.env T hasher notice) s = _ :=
    flush_passed (by rw [hc₁]; exact hw) (by rw [hc₁]; exact hdo)
  obtain ⟨hname, hcopies, hmirror, hbefore⟩ := passed_same (FileStore.env T hasher notice) c₁ reader
  have hcommit : (c.commit (FileStore.env T hasher notice) s).2.2 =
      (notice (passed (FileStore.env T hasher notice) c₁ reader) reader
        { s with fs := (w.commit T hasher s.fs true).2.2 }).2 := by
    rw [WriteCommand.commit, ← hc₁, hflush]
    rfl
  rw [hrun, hcommit]
  refine ⟨gone, digest, hnodup, hcommits, hdigest.symm, ?_⟩
  have hsame : c₁.instructions.version = c.instructions.version := by rw [hc₁]
  have hversion : VectorClock.toString T reader.md.version = v := hv
  have htold := h.told hne hversion hsame
  have hcomplete : (passed (FileStore.env T hasher notice) c₁ reader).isComplete = true := by
    rw [passed_isComplete, hc₁]
  rw [notice, htold, hname, hcopies, hmirror, hbefore, hcomplete, hc₁, h.name, h.copies, h.mirror, h.digest]

variable (hasher) in
lemma sent_telling {w : Writestream} (hs : Session T request.name w) (hk : w.writer.inode = some k)
    (hoffset : w.writer.offset = 0) (hname : request.name ≠ [])
    (hwrite : FileStore.write T s.host s.fs request.name request.version (toUnsignedShort request.copies) =
      (.accepted w, fs₁))
    (hbegun : Begun T request.name (w.vstr T) (toUnsignedShort request.copies) s.fs fs₁ k) {data : List Bytes}
    (hdata : ∀ d ∈ data, d ≠ [] ∧ d.length ≤ 0x10000) :
    ∃ c s', c.started = true ∧ sent T hasher request data s = (feed (FileStore.env T hasher notice) (c, s') []).2 ∧
      Telling T hasher request (w.vstr T) (leftover s.fs request.name (w.vstr T)) k s.fs fs₁ data.flatten
        (lastFlush data.flatten.length) c s' := by
  have hne : w.vstr T ≠ [] := List.ne_nil_of_mem hs.version.comma
  have hfirst : feed (FileStore.env T hasher notice) (create request, s) [] =
      ({ (create request : WriteCommand Writestream) with started := true, writer := some w },
        { s with fs := fs₁ }) := by
    rw [feed, run_first [] s hname]
    simp only [FileStore.env, hwrite]
    rfl
  have hstart : Telling T hasher request (w.vstr T) (leftover s.fs request.name (w.vstr T)) k s.fs fs₁ [] none
      { (create request : WriteCommand Writestream) with started := true, writer := some w }
      { s with fs := fs₁ } :=
    { finished := rfl
      status := rfl
      incomplete := rfl
      writer := ⟨w, rfl, hs, rfl, hk, hoffset⟩
      content := by simpa using hbegun.content_eq hs.version
      linked := hbegun.linked
      keyDir := hbegun.keyDir
      lookup := hbegun.lookup
      file := fun _ _ => rfl
      md := rfl
      name := rfl
      version := .inl rfl
      copies := rfl
      mirror := rfl
      digest := rfl }
  obtain ⟨hstarted, flushed, htelling, hdue⟩ := (telling_keeps T hasher request (w.vstr T)
    (leftover s.fs request.name (w.vstr T)) k s.fs fs₁ hne).feeds none rfl (Nat.zero_le _) hstart hdata
  refine ⟨_, _, hstarted, ?_, (hdue ⟨rfl, rfl⟩).flushed ▸ htelling⟩
  rw [sent, List.cons_append, List.foldl_cons, hfirst, List.foldl_append]
  rfl

end Notices

end WriteCommand

end Turbopump
