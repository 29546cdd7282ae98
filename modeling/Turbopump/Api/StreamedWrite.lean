import Turbopump.Api.CommitCalls
import Turbopump.Api.ResolvedConflicts

/-! One write command that nothing else comes between: what its buffers leave in the key's directory, with a callback
that leaves the files alone. -/

namespace Turbopump

open FileStore

lemma FileSystem.overwrite_onto (body old buff : Bytes) :
    overwrite (body ++ old.drop body.length) body.length buff = body ++ buff ++ old.drop (body ++ buff).length := by
  rw [overwrite]
  by_cases hbuff : buff = []
  · simp [hbuff]
  · have hdrop : (body ++ old.drop body.length).drop (body.length + buff.length) = old.drop (body ++ buff).length := by
      rw [List.drop_append, List.drop_of_length_le (by omega), List.nil_append, List.drop_drop, List.length_append]
      congr 1
      omega
    rw [if_neg hbuff, List.takeD_left, hdrop]

namespace WriteCommand

section Store

variable {σ ω ρ : Type} {E : WriteEnv σ ω ρ} (store : Write → σ → StoreAnswer ω × σ) (c : WriteCommand ω)
  (buff : Bytes) (s : σ)

lemma append_store : c.append { E with store := store } buff s = c.append E buff s := rfl

lemma flush_store : c.flush { E with store := store } s = c.flush E s := rfl

lemma commit_store : c.commit { E with store := store } s = c.commit E s := by
  simp only [commit, flush_store]
  rfl

lemma overflow_store (overfill topoff : ℕ) :
    c.overflow { E with store := store } buff overfill topoff s = c.overflow E buff overfill topoff s := by
  rw [overflow, overflow]
  simp only [append_store, flush_store]
  split_ifs
  · rfl
  · rfl
  · rfl
  · rfl

lemma consume_store : c.consume { E with store := store } buff s = c.consume E buff s := by
  rw [consume, consume]
  by_cases hsize : 0x10000 < uadd c.bytesSinceLastFlush buff.length
  · simp only [if_pos hsize, overflow_store]
  · simp only [if_neg hsize, append_store]

lemma run_first {request : Write} (hname : request.name ≠ []) :
    (create request : WriteCommand ω).run E buff s = match E.store request s with
      | (.accepted w, s) => ({ (create request : WriteCommand ω) with writer := some w }).proceed E buff s
      | (.refused, s) => (.returned false, { (create request : WriteCommand ω) with status := 500 }, s)
      | (.threw, s) => (.threw, create request, s) := by
  cases hstore : E.store request s with
  | mk answer s' =>
    cases answer with
    | accepted w => simp [run, create, hname, hstore]
    | refused => simp [run, create, hname, hstore, setStatus]
    | threw => simp [run, create, hname, hstore]

end Store

def flushedLength (n : ℕ) : ℕ := (n - 1) / 0x10000 * 0x10000

def lastFlush (n : ℕ) : Option ℕ := if n ≤ 0x10000 then none else some (flushedLength n)

section Lengths

variable {n b m : ℕ}

lemma flushedLength_add (hpos : 0 < b) (hb : b ≤ 0x10000) (q : ℕ) :
    flushedLength (q * 0x10000 + b) = q * 0x10000 := by
  have hdiv : (q * 0x10000 + b - 1) / 0x10000 = q := by
    rw [Nat.add_sub_assoc hpos, Nat.mul_comm, Nat.mul_add_div (by decide),
      Nat.div_eq_of_lt (Nat.sub_one_lt_of_le hpos hb), Nat.add_zero]
  rw [flushedLength, hdiv]

lemma flushedLength_fits (h : flushedLength n + b = n) (hfits : b + m ≤ 0x10000) :
    flushedLength (n + m) = flushedLength n := by
  rcases Nat.eq_zero_or_pos m with rfl | hm
  · rfl
  have hn : n + m = (n - 1) / 0x10000 * 0x10000 + (b + m) := by
    rw [← Nat.add_assoc]
    exact congrArg (· + m) h.symm
  rw [hn]
  exact flushedLength_add (Nat.add_pos_right b hm) hfits _

lemma flushedLength_overflow (h : flushedLength n + b = n) (hb : b ≤ 0x10000) (hm : m ≤ 0x10000)
    (hover : 0x10000 < b + m) : flushedLength (n + m) = n + (0x10000 - b) := by
  rw [flushedLength] at h
  have hn : n + m = ((n - 1) / 0x10000 + 1) * 0x10000 + (b + m - 0x10000) := by
    rw [Nat.add_mul, Nat.one_mul]
    generalize (n - 1) / 0x10000 * 0x10000 = e at h ⊢
    omega
  rw [hn, flushedLength_add (by omega) (by omega), Nat.add_mul, Nat.one_mul]
  generalize (n - 1) / 0x10000 * 0x10000 = e at h ⊢
  omega

lemma lastFlush_fits (h : flushedLength n + b = n) (hfits : b + m ≤ 0x10000) :
    lastFlush (n + m) = lastFlush n := by
  by_cases hn : n ≤ 0x10000
  · have hzero : flushedLength n = 0 := by
      rw [flushedLength, Nat.div_eq_of_lt (by omega), Nat.zero_mul]
    have hshort : n + m ≤ 0x10000 := by omega
    rw [lastFlush, lastFlush, if_pos hn, if_pos hshort]
  · have hlong : ¬ n + m ≤ 0x10000 := by omega
    rw [lastFlush, lastFlush, if_neg hn, if_neg hlong, flushedLength_fits h hfits]

lemma lastFlush_overflow (h : flushedLength n + b = n) (hb : b ≤ 0x10000) (hm : m ≤ 0x10000)
    (hover : 0x10000 < b + m) : lastFlush (n + m) = some (n + (0x10000 - b)) := by
  have hlong : ¬ n + m ≤ 0x10000 := by omega
  rw [lastFlush, if_neg hlong, flushedLength_overflow h hb hm hover]

end Lengths

section Buffers

variable {σ ω ρ : Type} {E : WriteEnv σ ω ρ} {I : Bytes → Option ℕ → WriteCommand ω → σ → Prop} {body : Bytes}
  {flushed : Option ℕ} {c : WriteCommand ω} {s : σ}

/-- `I body flushed` holds along a write that has been given `body`, and was flushed last when it had been given
`flushed` bytes. -/
structure Keeps (E : WriteEnv σ ω ρ) (I : Bytes → Option ℕ → WriteCommand ω → σ → Prop) : Prop where
  finished : ∀ {body flushed c s}, I body flushed c s → c.finished = false
  touch : ∀ {body flushed c c' s}, I body flushed c s → c'.finished = c.finished → c'.status = c.status →
    c'.writer = c.writer → c'.instructions = c.instructions → I body flushed c' s
  append : ∀ {body flushed c s} (buff : Bytes), I body flushed c s →
    I (body ++ buff) flushed (c.append E buff s).1 (c.append E buff s).2
  flush : ∀ {body flushed c s}, I body flushed c s →
    (c.flush E s).1 = true ∧ I body (some body.length) (c.flush E s).2.1 (c.flush E s).2.2

/-- The flushes are those of the 64 KiB that came before more. -/
structure Due (body : Bytes) (flushed : Option ℕ) (c : WriteCommand ω) : Prop where
  flushed : flushed = lastFlush body.length
  counter : flushedLength body.length + c.bytesSinceLastFlush = body.length

lemma append_bytes (E : WriteEnv σ ω ρ) (c : WriteCommand ω) (buff : Bytes) (s : σ) :
    (c.append E buff s).1.bytesSinceLastFlush = c.bytesSinceLastFlush := by
  cases hw : c.writer <;> simp [append, hw]

lemma flush_bytes (h : (c.flush E s).1 = true) : (c.flush E s).2.1.bytesSinceLastFlush = 0 := by
  cases hw : c.writer with
  | none => simp [flush, hw] at h
  | some w =>
    rcases hc : E.commit w c.instructions.isComplete s with ⟨_ | r, w', s'⟩
    · simp [flush, hw, hc] at h
    · simp [flush, hw, hc]

lemma Keeps.overflow (hI : Keeps E I) {topoff : ℕ} (h : I body flushed c s) {buff : Bytes}
    (htopoff : topoff ≤ buff.length) (hbuff : buff.length ≤ 0x10000) :
    let r := c.overflow E buff (buff.length - topoff) topoff s
    r.1 = .returned true ∧ r.2.1.bytesSinceLastFlush = buff.length - topoff ∧
      I (body ++ buff) (some (body.length + topoff)) r.2.1 r.2.2 := by
  obtain ⟨c₁, s₁, htop, h₁⟩ : ∃ c₁ s₁, (if 0 < topoff then c.append E (buff.take topoff) s else (c, s)) = (c₁, s₁) ∧
      I (body ++ buff.take topoff) flushed c₁ s₁ := by
    by_cases hpos : 0 < topoff
    · rw [if_pos hpos]
      exact ⟨_, _, rfl, hI.append _ h⟩
    · rw [if_neg hpos, Nat.eq_zero_of_not_pos hpos, List.take_zero, List.append_nil]
      exact ⟨c, s, rfl, h⟩
  obtain ⟨hgood, h₂⟩ := hI.flush h₁
  have h₃ := hI.append (buff.drop topoff) h₂
  have hrest : (buff.drop topoff).take (buff.length - topoff) = buff.drop topoff := by
    rw [← List.length_drop, List.take_length]
  have hadd : uadd 0 (buff.length - topoff) = buff.length - topoff := by
    rw [uadd]
    omega
  simp only [WriteCommand.overflow, htop, hgood, if_true, hrest, append_bytes, flush_bytes hgood, hadd]
  rw [List.append_assoc, List.take_append_drop, List.length_append, List.length_take_of_le htopoff] at h₃
  exact ⟨trivial, trivial, hI.touch h₃ rfl rfl rfl rfl⟩

lemma Keeps.consume (hI : Keeps E I) (flushed : Option ℕ) (h : I body flushed c s)
    (hcounter : c.bytesSinceLastFlush ≤ 0x10000) {buff : Bytes} (hbuff : buff.length ≤ 0x10000) :
    let r := c.consume E buff s
    r.1 = .returned true ∧ r.2.1.bytesSinceLastFlush ≤ 0x10000 ∧ ∃ flushed', I (body ++ buff) flushed' r.2.1 r.2.2 ∧
      (Due body flushed c → Due (body ++ buff) flushed' r.2.1) := by
  obtain ⟨hsize, hwrap⟩ := arithmetic hcounter hbuff
  have h' : I body flushed { c with started := true } s := hI.touch h rfl rfl rfl rfl
  by_cases hover : 0x10000 < c.bytesSinceLastFlush + buff.length
  · obtain ⟨hoverfill, hle, htopoff⟩ := hwrap hover
    have heq : c.bytesSinceLastFlush + buff.length - 0x10000 = buff.length - (0x10000 - c.bytesSinceLastFlush) := by
      omega
    have hfits : 0x10000 - c.bytesSinceLastFlush ≤ buff.length := by omega
    obtain ⟨hres, hbytes, hkept⟩ := hI.overflow h' hfits hbuff
    simp only [WriteCommand.consume, hsize, if_pos hover, hoverfill, htopoff]
    rw [heq]
    refine ⟨hres, by omega, _, hkept, fun hdue => ⟨?_, ?_⟩⟩
    · rw [List.length_append, lastFlush_overflow hdue.counter hcounter hbuff hover]
    · rw [List.length_append, flushedLength_overflow hdue.counter hcounter hbuff hover, hbytes]
      omega
  · simp only [WriteCommand.consume, hsize, if_neg hover]
    refine ⟨trivial, not_lt.1 hover, flushed, hI.touch (hI.append buff h') rfl rfl rfl rfl, fun hdue => ⟨?_, ?_⟩⟩
    · rw [List.length_append, lastFlush_fits hdue.counter (not_lt.1 hover)]
      exact hdue.flushed
    · rw [List.length_append, flushedLength_fits hdue.counter (not_lt.1 hover), ← Nat.add_assoc, hdue.counter]

lemma Keeps.feed (hI : Keeps E I) (flushed : Option ℕ) (hstarted : c.started = true)
    (hcounter : c.bytesSinceLastFlush ≤ 0x10000) (h : I body flushed c s) {buff : Bytes} (hbuff : buff ≠ [])
    (hsize : buff.length ≤ 0x10000) :
    let r := WriteCommand.feed E (c, s) buff
    r.1.started = true ∧ r.1.bytesSinceLastFlush ≤ 0x10000 ∧ ∃ flushed', I (body ++ buff) flushed' r.1 r.2 ∧
      (Due body flushed c → Due (body ++ buff) flushed' r.1) := by
  have hrun : WriteCommand.feed E (c, s) buff = (c.consume E buff s).2 := by
    rw [WriteCommand.feed, WriteCommand.run, hI.finished h, if_neg Bool.false_ne_true, hstarted, if_pos rfl,
      WriteCommand.proceed, if_neg hbuff]
  rw [hrun]
  exact ⟨(consume_flags c buff s).1, (hI.consume flushed h hcounter hsize).2⟩

lemma Keeps.feeds (hI : Keeps E I) (flushed : Option ℕ) (hstarted : c.started = true)
    (hcounter : c.bytesSinceLastFlush ≤ 0x10000) (h : I body flushed c s) {buffs : List Bytes}
    (hbuffs : ∀ b ∈ buffs, b ≠ [] ∧ b.length ≤ 0x10000) :
    let r := buffs.foldl (WriteCommand.feed E) (c, s)
    r.1.started = true ∧ ∃ flushed', I (body ++ buffs.flatten) flushed' r.1 r.2 ∧
      (Due body flushed c → Due (body ++ buffs.flatten) flushed' r.1) := by
  induction buffs generalizing c s body flushed with
  | nil =>
    rw [List.flatten_nil, List.append_nil]
    exact ⟨hstarted, flushed, h, id⟩
  | cons b buffs ih =>
    obtain ⟨⟨hb, hsize⟩, hrest⟩ := List.forall_mem_cons.1 hbuffs
    obtain ⟨hstarted', hcounter', flushed', h', hdue⟩ := hI.feed flushed hstarted hcounter h hb hsize
    obtain ⟨hstarted'', flushed'', h'', hdue'⟩ := ih flushed' hstarted' hcounter' h' hrest
    rw [List.flatten_cons, ← List.append_assoc]
    exact ⟨hstarted'', flushed'', h'', hdue' ∘ hdue⟩

end Buffers

structure Streaming {κ : Type} (T : TurboLib) (n v old body : Bytes) (k : ℕ) (fs₀ : FileSystem)
    (c : WriteCommand Writestream) (s : StoreState κ) : Prop where
  finished : c.finished = false
  status : c.status = 0
  incomplete : c.instructions.isComplete = false
  writer : ∃ w, c.writer = some w ∧ Session T n w ∧ w.vstr T = v ∧ w.writer.inode = some k ∧
    w.writer.offset = body.length
  content : (s.fs.file k).content = body ++ old.drop body.length
  linked : k < s.fs.inodes.length
  keyDir : KeyDir T s.fs n
  lookup : ∀ nm, s.fs.lookup (dirpath n) nm = if v ++ [126] = nm then some k else fs₀.lookup (dirpath n) nm

section Steps

variable {κ : Type} {T : TurboLib} {hasher : Bytes → Bytes} {n v old body : Bytes} {k : ℕ} {fs₀ : FileSystem}
  {c : WriteCommand Writestream} {s : StoreState κ}
  {onCommit : WriteInstructions → Readstream → StoreState κ → WriteInstructions × StoreState κ}

lemma Streaming.touch {c' : WriteCommand Writestream} (h : Streaming T n v old body k fs₀ c s)
    (hfinished : c'.finished = c.finished) (hstatus : c'.status = c.status) (hwriter : c'.writer = c.writer)
    (hinstructions : c'.instructions = c.instructions) : Streaming T n v old body k fs₀ c' s where
  finished := hfinished.trans h.finished
  status := hstatus.trans h.status
  incomplete := hinstructions ▸ h.incomplete
  writer := hwriter ▸ h.writer
  content := h.content
  linked := h.linked
  keyDir := h.keyDir
  lookup := h.lookup

variable (hasher onCommit) in
lemma Streaming.append (h : Streaming T n v old body k fs₀ c s) (buff : Bytes) :
    let r := c.append (FileStore.env T hasher onCommit) buff s
    r.1.bytesSinceLastFlush = c.bytesSinceLastFlush ∧ Streaming T n v old (body ++ buff) k fs₀ r.1 r.2 := by
  obtain ⟨w, hw, hs, hv, hinode, hoffset⟩ := h.writer
  have happend : c.append (FileStore.env T hasher onCommit) buff s =
      ({ c with writer := some { w with writer.offset := w.writer.offset + buff.length } },
        { s with fs := s.fs.writeAt k w.writer.offset buff }) := by
    simp only [WriteCommand.append, hw, FileStore.env, Writestream.write, hinode]
  rw [happend]
  refine ⟨rfl, h.finished, h.status, h.incomplete, ⟨_, rfl, ⟨hs.name, hs.version, hs.clock, hs.path⟩, hv, hinode,
    ?_⟩, ?_, ?_,
    ?_, ?_⟩
  · rw [List.length_append, ← hoffset]
  · change ((s.fs.writeAt k w.writer.offset buff).file k).content = _
    rw [FileSystem.file_writeAt _ _ h.linked, hoffset, h.content, FileSystem.overwrite_onto]
  · simpa [FileSystem.writeAt] using h.linked
  · exact h.keyDir.mono (fun c hc => hc) fun nm l hl => .inl ⟨l, hl⟩
  · exact h.lookup

lemma Streaming.find (h : Streaming T n v old body k fs₀ c s) {w : Writestream} (hs : Session T n w)
    (hv : w.vstr T = v) :
    s.fs.find w.writer.path = some k := by
  rw [hs.path, tempname_eq hs.version, FileSystem.find_concat, hv, h.lookup, if_pos rfl]

variable (hasher) in
lemma Streaming.flush (hfs : ∀ params reader s, (onCommit params reader s).2.fs = s.fs)
    (hincomplete : ∀ params reader s, params.isComplete = false → (onCommit params reader s).1.isComplete = false)
    (h : Streaming T n v old body k fs₀ c s) :
    let r := c.flush (FileStore.env T hasher onCommit) s
    r.1 = true ∧ r.2.1.bytesSinceLastFlush = 0 ∧ Streaming T n v old body k fs₀ r.2.1 r.2.2 := by
  obtain ⟨w, hw, hs, hv, hinode, hoffset⟩ := h.writer
  have hfind := h.find hs hv
  have hdo : (FileStore.env T hasher onCommit).commit w c.instructions.isComplete s =
      (some ⟨k, { w.md with digest := Writestream.digest hasher (w.vstr T) (s.fs.file k).content.length }⟩,
        { w with
          md := { w.md with digest := Writestream.digest hasher (w.vstr T) (s.fs.file k).content.length } }, s) := by
    simp only [FileStore.env, h.incomplete, Writestream.commit, hfind, Bool.false_eq_true, if_false]
    rfl
  simp only [WriteCommand.flush, hw, hdo]
  refine ⟨trivial, trivial, h.finished, h.status, ?_, ⟨_, rfl, ⟨hs.name, hs.version, hs.clock, hs.path⟩, hv,
    hinode, hoffset⟩,
    ?_, ?_, ?_, ?_⟩
  · apply hincomplete
    split_ifs
    · exact h.incomplete
    · exact h.incomplete
  all_goals simp only [FileStore.env, hfs]
  · exact h.content
  · exact h.linked
  · exact h.keyDir
  · exact h.lookup

variable (T hasher n v old k fs₀) in
lemma streaming_keeps (hfs : ∀ params reader s, (onCommit params reader s).2.fs = s.fs)
    (hincomplete : ∀ params reader s, params.isComplete = false → (onCommit params reader s).1.isComplete = false) :
    Keeps (FileStore.env T hasher onCommit) fun body _ c s => Streaming T n v old body k fs₀ c s where
  finished h := h.finished
  touch h := h.touch
  append buff h := (h.append hasher onCommit buff).2
  flush h := ⟨(h.flush hasher hfs hincomplete).1, (h.flush hasher hfs hincomplete).2.2⟩

variable (hasher) in
lemma Streaming.commit (hT : T.Base64) (hfs : ∀ params reader s, (onCommit params reader s).2.fs = s.fs)
    (h : Streaming T n v old body k fs₀ c s) :
    let r := c.commit (FileStore.env T hasher onCommit) s
    r.1 = .returned true ∧ r.2.1.status = 200 ∧ ∃ gone, Commits T s.fs r.2.2.fs n v k gone := by
  obtain ⟨w, hw, hs, hv, -⟩ := h.writer
  have hk : s.fs.lookup (dirpath n) (w.vstr T ++ [126]) = some k := by
    rw [hv, h.lookup, if_pos rfl]
  obtain ⟨gone, hcommits⟩ := @commit_commits T hasher s.fs n w hT h.keyDir hs k hk
  obtain ⟨reader, hreader⟩ : ∃ reader, (w.commit T hasher s.fs true).1 = some reader := by
    simp [Writestream.commit, h.find hs hv]
  have hdo : (FileStore.env T hasher onCommit).commit w true s =
      (some reader, (w.commit T hasher s.fs true).2.1, { s with fs := (w.commit T hasher s.fs true).2.2 }) := by
    rw [← hreader]
    rfl
  simp only [WriteCommand.commit, WriteCommand.flush, hw, hdo, if_true, setStatus]
  refine ⟨rfl, trivial, gone, ?_⟩
  simp only [FileStore.env, hfs]
  rw [← hv]
  exact hcommits

variable (hasher) in
lemma Streaming.feed_end (hT : T.Base64) (hfs : ∀ params reader s, (onCommit params reader s).2.fs = s.fs)
    (hstarted : c.started = true) (h : Streaming T n v old body k fs₀ c s) :
    ∃ gone, Commits T s.fs (WriteCommand.feed (FileStore.env T hasher onCommit) (c, s) []).2.fs n v k gone := by
  have hrun : WriteCommand.feed (FileStore.env T hasher onCommit) (c, s) [] =
      (c.commit (FileStore.env T hasher onCommit) s).2 := by
    rw [WriteCommand.feed, WriteCommand.run, h.finished, if_neg Bool.false_ne_true, hstarted, if_pos rfl,
      WriteCommand.proceed, if_pos rfl, hstarted, if_pos rfl]
  rw [hrun]
  exact (h.commit hasher hT hfs).2.2

end Steps

end WriteCommand

namespace FileStore

def leftover (fs : FileSystem) (name v : Bytes) : Bytes := match fs.find (tempname name v) with
  | none => []
  | some k => (fs.file k).content

lemma KeyDir.inode_of_write {T : TurboLib} {host : Host} {fs fs' : FileSystem} {n version : Bytes} {copies k : ℕ}
    {w : Writestream} (h : KeyDir T fs n) (hwrite : FileStore.write T host fs n version copies = (.accepted w, fs'))
    (hs : Session T n w) (hk : fs.lookup (dirpath n) (w.vstr T ++ [126]) = some k) : w.writer.inode = some k := by
  rcases FileStore.write_cases T host fs n version copies with hthrew | hrefused | ⟨clock, hopen⟩
  · simp [hthrew] at hwrite
  · simp [hrefused] at hwrite
  · have hdir : ¬ (fs.createDirectories (dirpath n)).HasDir (dirpath n ++ [w.vstr T ++ [126]]) := by
      rw [FileSystem.hasDir_createDirectories]
      rintro (hd | hpre)
      · exact h.subdirs _ hd (by simp [hs.version.comma])
      · simpa using hpre.length_le
    have hold := FileSystem.openWrite_old hdir (k := k) (by simpa using hk)
    rw [← tempname_eq hs.version] at hold
    have hclock : w.md.version = clock := by
      rw [hopen, FileStore.openVersion] at hwrite
      split at hwrite
      · simp at hwrite
      · rw [← StoreAnswer.accepted.inj (Prod.mk.inj hwrite).1]
    rw [Writestream.vstr, hclock] at hold
    rw [hopen, FileStore.openVersion, hold] at hwrite
    rw [← StoreAnswer.accepted.inj (Prod.mk.inj hwrite).1]

end FileStore

namespace WriteCommand

variable {κ : Type} {T : TurboLib} {n : Bytes} {w : Writestream} {s : StoreState κ} {fs' : FileSystem}

lemma streaming_of_write (hT : T.Base64) (hP : T.Printable) (hdir : KeyDir T s.fs n) (hr : s.fs.Rooted)
    (hlinked : ∀ nm k, s.fs.lookup (dirpath n) nm = some k → k < s.fs.inodes.length)
    (hid : ∀ b ∈ s.host.memberId, isPlain b) {version : Bytes} {copies : ℕ}
    (hwrite : FileStore.write T s.host s.fs n version copies = (.accepted w, fs')) (request : Write) :
    ∃ k, Streaming T n (w.vstr T) (leftover s.fs n (w.vstr T)) [] k s.fs
      { (create request : WriteCommand Writestream) with writer := some w } { s with fs := fs' } := by
  obtain ⟨hdir', -, hsession⟩ := hdir.write hT hP hr hid version copies
  rw [hwrite] at hdir' hsession
  obtain ⟨hno, -⟩ | ⟨clock, inode, fs'', heq, hv, hopens, -⟩ := hdir.write_opens hT hP hr s.host hid version copies
  · rw [hwrite] at hno
    exact absurd rfl (hno w)
  · have hs := hsession w rfl
    have hinode (l : ℕ) := hdir.inode_of_write hwrite hs (k := l)
    rw [heq] at hwrite
    obtain ⟨hw, rfl⟩ := Prod.mk.inj hwrite
    obtain rfl := StoreAnswer.accepted.inj hw
    refine ⟨inode, rfl, rfl, rfl, ⟨_, rfl, hs, rfl, rfl, rfl⟩, ?_, ?_, hdir', hopens.lookup⟩
    · rw [hopens.content, List.nil_append, List.length_nil, List.drop_zero, leftover, tempname_eq hs.version,
        FileSystem.find_concat]
      cases hlookup : s.fs.lookup (dirpath n) (VectorClock.toString T clock ++ [126]) with
      | none =>
        rcases hopens.inode with hold | ⟨rfl, -⟩
        · simp [hlookup] at hold
        · rw [file_default le_rfl, Writestream.vstr, hlookup]
      | some l =>
        obtain rfl : inode = l := Option.some.inj (hinode l hlookup)
        rw [Writestream.vstr, hlookup]
    · rcases hopens.inode with hold | ⟨rfl, hlength⟩
      · exact (hlinked _ _ hold).trans_le hopens.length
      · rw [hlength]
        exact Nat.lt_succ_self _

end WriteCommand

end Turbopump
