import Turbopump.Callbacks.NotifyWriteComplete

/-! A write command at one node of a chain: what it has stored, passed on and acknowledged of the buffers that it has
been given. -/

namespace Turbopump

open FileStore ChainWrite
open VectorClock (IsVersion)

namespace WriteCommand

def named (v : Bytes) (params : WriteInstructions) : WriteInstructions :=
  if params.version = [] then { params with version := v } else params

section Moves

variable {σ ω ρ : Type} {E : WriteEnv σ ω ρ} {R : σ → σ → Prop} {c : WriteCommand ω} {buff : Bytes} {s : σ}

structure Moves (R : σ → σ → Prop) (E : WriteEnv σ ω ρ) : Prop where
  refl : ∀ s, R s s
  trans : ∀ {s s' s''}, R s s' → R s' s'' → R s s''
  store : ∀ request s, R s (E.store request s).2
  write : ∀ w buff s, R s (E.write w buff s).2
  commit : ∀ w isComplete s, R s (E.commit w isComplete s).2.2
  onCommit : ∀ params reader s, R s (E.onCommit params reader s).2

lemma Moves.append (h : Moves R E) : R s (c.append E buff s).2 := by
  rw [WriteCommand.append]
  cases c.writer with
  | none => exact h.refl s
  | some w => exact h.write w buff s

lemma Moves.flush (h : Moves R E) : R s (c.flush E s).2.2 := by
  cases hw : c.writer with
  | none =>
    rw [WriteCommand.flush, hw]
    exact h.refl s
  | some w =>
    have hcommit := h.commit w c.instructions.isComplete s
    rcases hc : E.commit w c.instructions.isComplete s with ⟨_ | reader, w', s'⟩
    · rw [hc] at hcommit
      simp only [WriteCommand.flush, hw, hc]
      exact hcommit
    · rw [hc] at hcommit
      simp only [WriteCommand.flush, hw, hc]
      exact h.trans hcommit (h.onCommit _ reader s')

lemma Moves.overflow (h : Moves R E) (overfill topoff : ℕ) : R s (c.overflow E buff overfill topoff s).2.2 := by
  simp only [WriteCommand.overflow]
  split_ifs
  · exact h.trans h.append (h.trans h.flush h.append)
  · exact h.trans h.append h.flush
  · exact h.trans h.flush h.append
  · exact h.flush

lemma Moves.proceed (h : Moves R E) : R s (c.proceed E buff s).2.2 := by
  simp only [WriteCommand.proceed, WriteCommand.consume, WriteCommand.commit, setStatus]
  split_ifs
  · exact h.flush
  · exact h.flush
  · exact h.refl s
  · exact h.overflow _ _
  · exact h.append

lemma Moves.feed (h : Moves R E) : R s (WriteCommand.feed E (c, s) buff).2 := by
  simp only [WriteCommand.feed, WriteCommand.run, setStatus]
  split_ifs
  · exact h.refl s
  · exact h.proceed
  · exact h.refl s
  · have hstore := h.store c.instructions.toWrite s
    split
    case h_1 w s' heq =>
      rw [heq] at hstore
      exact h.trans hstore h.proceed
    case h_2 s' heq =>
      rw [heq] at hstore
      exact hstore
    case h_3 s' heq =>
      rw [heq] at hstore
      exact hstore

end Moves

section Flush

variable {σ ω ρ : Type} {E : WriteEnv σ ω ρ} {c : WriteCommand ω} {w w' : ω} {reader : ρ} {s s' : σ}

def flushedBy (E : WriteEnv σ ω ρ) (w' : ω) (reader : ρ) (left : WriteInstructions) (c : WriteCommand ω) :
    WriteCommand ω :=
  { c with
    instructions := { left with digest := E.digest reader, offset := (E.position w').getD left.offset }
    writer := some w'
    bytesSinceLastFlush := 0 }

lemma flush_of_commit (hw : c.writer = some w)
    (hcommit : E.commit w c.instructions.isComplete s = (some reader, w', s')) :
    let left := E.onCommit (named (E.version reader) c.instructions) reader s'
    c.flush E s = (true, flushedBy E w' reader left.1 c, left.2) := by
  simp only [flush, hw, hcommit]
  rfl

end Flush

section Streaming

variable {κ : Type} {T : TurboLib} {hasher : Bytes → Bytes} {n v old body : Bytes} {k : ℕ} {fs₀ : FileSystem}
  {c : WriteCommand Writestream} {s : StoreState κ}
  {onCommit : WriteInstructions → Readstream → StoreState κ → WriteInstructions × StoreState κ}

lemma append_keeps (T : TurboLib) (hasher : Bytes → Bytes)
    (onCommit : WriteInstructions → Readstream → StoreState κ → WriteInstructions × StoreState κ)
    (c : WriteCommand Writestream) (buff : Bytes) (s : StoreState κ) :
    (c.append (FileStore.env T hasher onCommit) buff s).1.instructions = c.instructions ∧
      (c.append (FileStore.env T hasher onCommit) buff s).2.callbacks = s.callbacks ∧
      (c.append (FileStore.env T hasher onCommit) buff s).2.host = s.host := by
  cases hw : c.writer <;> simp [WriteCommand.append, hw, FileStore.env]

variable (hasher onCommit) in
lemma Streaming.flush_eq (h : Streaming T n v old body k fs₀ c s) :
    ∃ (reader : Readstream) (w' : Writestream), reader.inode = k ∧ Writestream.position w' = some body.length ∧
      c.flush (FileStore.env T hasher onCommit) s = (true, flushedBy (FileStore.env T hasher onCommit) w' reader
        (onCommit (named v c.instructions) reader s).1 c, (onCommit (named v c.instructions) reader s).2) := by
  obtain ⟨w, hw, hs, hv, hinode, hoffset⟩ := h.writer
  have hfind := h.find hs hv
  obtain ⟨reader, w', hreader, hposition, hversion, hdo⟩ : ∃ (reader : Readstream) (w' : Writestream),
      reader.inode = k ∧ Writestream.position w' = some body.length ∧
        (FileStore.env T hasher onCommit).version reader = v ∧
        (FileStore.env T hasher onCommit).commit w c.instructions.isComplete s = (some reader, w', s) := by
    refine ⟨⟨k, { w.md with digest := Writestream.digest hasher (w.vstr T) (s.fs.file k).content.length }⟩,
      { w with
        md := { w.md with digest := Writestream.digest hasher (w.vstr T) (s.fs.file k).content.length } },
      rfl, ?_, hv, ?_⟩
    · rw [Writestream.position, hinode, hoffset]
      rfl
    · simp only [FileStore.env, h.incomplete, Writestream.commit, hfind, Bool.false_eq_true, if_false]
      rfl
  refine ⟨reader, w', hreader, hposition, ?_⟩
  rw [flush_of_commit hw hdo, hversion]
  rfl

variable (hasher onCommit) in
lemma Streaming.commit_eq (hT : T.Base64) (h : Streaming T n v old body k fs₀ c s) :
    ∃ (reader : Readstream) (fs' : FileSystem) (gone : List Bytes), reader.inode = k ∧ Commits T s.fs fs' n v k gone ∧
      (c.commit (FileStore.env T hasher onCommit) s).2.1.finished = true ∧
      (c.commit (FileStore.env T hasher onCommit) s).2.2 =
        (onCommit (named v { c.instructions with isComplete := true }) reader { s with fs := fs' }).2 := by
  obtain ⟨w, hw, hs, hv, -⟩ := h.writer
  have hk : s.fs.lookup (dirpath n) (w.vstr T ++ [126]) = some k := by
    rw [hv, h.lookup, if_pos rfl]
  obtain ⟨gone, -, hcommits, hreader⟩ := @commit_reader T hasher s.fs n w hT h.keyDir hs k hk
  set reader : Readstream := ⟨k, { w.md with
    digest := Writestream.digest hasher (w.vstr T) (s.fs.file k).content.length ^^^ xorAll (gone.map fun u =>
      Writestream.digest hasher u
        (if u = w.vstr T then (s.fs.file k).content.length else s.fs.size (filepath n u))) }⟩
  set closing : WriteCommand Writestream :=
    { c with finished := true, instructions := { c.instructions with isComplete := true } }
  have hdo : (FileStore.env T hasher onCommit).commit w closing.instructions.isComplete s =
      (some reader, (w.commit T hasher s.fs true).2.1, { s with fs := (w.commit T hasher s.fs true).2.2 }) := by
    rw [← hreader]
    rfl
  have hversion : (FileStore.env T hasher onCommit).version reader = v := hv
  have hflush := @flush_of_commit _ _ _ _ closing _ _ _ _ _ hw hdo
  rw [hversion] at hflush
  refine ⟨reader, (w.commit T hasher s.fs true).2.2, gone, rfl, hv ▸ hcommits, commit_finished c s, ?_⟩
  simp only [WriteCommand.commit, closing] at hflush ⊢
  simp only [hflush, if_true, setStatus]
  rfl

end Streaming

end WriteCommand

section Relay

open WriteCommand

variable {capacity : ℕ} {pack : Write → Bytes} {T : TurboLib} {hasher : Bytes → Bytes} {node : ChainNode}
  {L : List Bytes} {origin name v : Bytes} {m : ℕ} {mirror : Bool} {body : Bytes} {flushed : Option ℕ}
  {params : WriteInstructions} {links : Links}

lemma writeChainFunct_isComplete (takes : ℕ → Bool) (blocking : Bool) (contents : Bytes) :
    (writeChainFunct takes capacity pack node blocking params contents links).1.isComplete = params.isComplete := by
  obtain ⟨choice, -, -, hleaves⟩ :=
    MirrorToPeer.chooseMirror_leaves node.locations node.membership params true
  have hcomplete : (MirrorToPeer.chooseMirror node.locations node.membership params).2.isComplete =
      params.isComplete := by
    rw [← hleaves]
    rfl
  rw [writeChainFunct]
  split
  · split <;> rfl
  · split
    · simpa [*] using hcomplete
    · split_ifs
      · simpa [*] using hcomplete
      · simpa [*] using hcomplete

lemma ChainWrite.Behind.version (h : Behind capacity pack L origin name v m mirror flushed body params links) :
    (named v params).version = v := by
  have hversion : params.version = [] ∨ params.version = v := by
    cases flushed with
    | none => exact h.2.1
    | some e => exact Or.inr h.1.version
  rw [named]
  split_ifs with hnil
  · rfl
  · exact hversion.resolve_left hnil

lemma ChainWrite.Behind.named (h : Behind capacity pack L origin name v m mirror flushed body params links) :
    Behind capacity pack L origin name v m mirror flushed body (named v params) links := by
  have hsame (hversion : params.version = v) : WriteCommand.named v params = params := by
    rw [WriteCommand.named]
    split_ifs with hnil
    · rw [← hversion]
    · rfl
  have hversion := h.version
  cases flushed with
  | none =>
    obtain ⟨hopening, -, hlinks⟩ := h
    refine ⟨?_, Or.inr hversion, hlinks⟩
    rw [WriteCommand.named]
    split_ifs
    · exact ⟨hopening.name, hopening.copies, hopening.mirror, hopening.source, hopening.offset, hopening.outstream⟩
    · exact hopening
  | some e =>
    rw [hsame h.1.version]
    exact h

lemma ChainWrite.Behind.complete (h : Behind capacity pack L origin name v m mirror flushed body params links) :
    Behind capacity pack L origin name v m mirror flushed body { params with isComplete := true } links := by
  cases flushed with
  | none =>
    obtain ⟨hopening, hversion, hlinks⟩ := h
    exact ⟨⟨hopening.name, hopening.copies, hopening.mirror, hopening.source, hopening.offset, hopening.outstream⟩,
      hversion, hlinks⟩
  | some e =>
    obtain ⟨hpassing, hoffset, he, hlinked, hacked⟩ := h
    exact ⟨⟨hpassing.name, hpassing.version, hpassing.copies, hpassing.mirror, hpassing.source⟩, hoffset, he, hlinked,
      hacked⟩

structure Relaying (capacity : ℕ) (pack : Write → Bytes) (T : TurboLib) (L : List Bytes) (origin name v : Bytes)
    (m : ℕ) (mirror : Bool) (k : ℕ) (fs₀ : FileSystem) (body : Bytes) (flushed : Option ℕ)
    (c : WriteCommand Writestream) (s : StoreState (Callbacks Links)) : Prop where
  streaming : Streaming T name v [] body k fs₀ c s
  behind : body.length < 2 ^ 63 →
    Behind capacity pack L origin name v m mirror flushed body c.instructions s.callbacks.others

variable {k : ℕ} {fs₀ : FileSystem} {c : WriteCommand Writestream} {s : StoreState (Callbacks Links)}

variable (capacity pack node mirror) in
abbrev chainEnv (T : TurboLib) (hasher : Bytes → Bytes) :
    WriteEnv (StoreState (Callbacks Links)) Writestream Readstream :=
  FileStore.env T hasher (whenWriteFinishesOn (fun _ => true) capacity pack node mirror)

variable (T hasher v k fs₀ mirror) in
lemma relaying_keeps (hc : 0 < capacity) (hplace : Place node L origin name m) :
    Keeps (chainEnv capacity pack node mirror T hasher)
      (Relaying capacity pack T L origin name v m mirror k fs₀) where
  finished h := h.streaming.finished
  touch h hfinished hstatus hwriter hinstructions :=
    ⟨h.streaming.touch hfinished hstatus hwriter hinstructions, hinstructions ▸ h.behind⟩
  append {body flushed c s} buff h := by
    obtain ⟨hinstructions, hcallbacks, -⟩ := append_keeps T hasher
      (whenWriteFinishesOn (fun _ => true) capacity pack node mirror) c buff s
    refine ⟨(h.streaming.append hasher _ buff).2, fun hbody => ?_⟩
    rw [hinstructions, hcallbacks]
    exact (h.behind (lt_of_le_of_lt (by simp) hbody)).append buff
  flush {body flushed c s} h := by
    have hincomplete (params : WriteInstructions) (reader : Readstream) (s : StoreState (Callbacks Links))
        (hcomplete : params.isComplete = false) :
        (whenWriteFinishesOn (fun _ => true) capacity pack node mirror params reader s).1.isComplete = false :=
      (writeChainFunct_isComplete _ _ _).trans hcomplete
    obtain ⟨hgood, -, hstreaming⟩ := h.streaming.flush hasher (fun _ _ _ => rfl) hincomplete
    refine ⟨hgood, hstreaming, fun hbody => ?_⟩
    obtain ⟨reader, w', hreader, hposition, hflush⟩ := h.streaming.flush_eq hasher
      (whenWriteFinishesOn (fun _ => true) capacity pack node mirror)
    have hbehind := h.behind hbody
    have hcontent : (s.fs.file reader.inode).content = body := by
      rw [hreader, h.streaming.content]
      simp
    obtain ⟨-, -, hfinished⟩ := hbehind.named.finish hc hplace hbehind.version hcontent hbody
    have hgoes : (named v c.instructions).isComplete = false := by
      rw [named]
      split_ifs <;> exact h.streaming.incomplete
    rw [hgoes] at hfinished
    rw [hflush]
    refine ⟨⟨hfinished.passing.name, hfinished.passing.version, hfinished.passing.copies, hfinished.passing.mirror,
      hfinished.passing.source⟩, ?_, le_rfl, hfinished.linked, hfinished.acked⟩
    simp [flushedBy, FileStore.env, hposition]

/-- The store takes the request under the version `v`, which is new to it, or refuses it. -/
def Answers (T : TurboLib) (v : Bytes) (request : Write) (s : StoreState (Callbacks Links)) : Prop :=
  let answer := FileStore.write T s.host s.fs request.name request.version (toUnsignedShort request.copies)
  answer = (.refused, s.fs) ∨
    ∃ w fs', answer = (.accepted w, fs') ∧ w.vstr T = v ∧ v ∉ versions s.fs request.name true

/-- A write command, created from `request` when the store was `s₀`, after the buffers `buffs`. -/
inductive Phase (capacity : ℕ) (pack : Write → Bytes) (T : TurboLib) (L : List Bytes) (origin name v : Bytes) (m : ℕ)
    (mirror : Bool) (request : Write) (s₀ : StoreState (Callbacks Links)) (buffs : List Bytes)
    (c : WriteCommand Writestream) (s : StoreState (Callbacks Links)) : Prop
  | waiting (hstarted : c.started = false) (hfinished : c.finished = false)
      (hinstructions : c.instructions = { toWrite := request }) (hstore : s = s₀)
      (hrefused : buffs = [] ∧ c = .create request ∨
        FileStore.write T s₀.host s₀.fs name request.version (toUnsignedShort request.copies) = (.refused, s₀.fs))
  | relaying (k : ℕ) (flushed : Option ℕ) (hstarted : c.started = true) (hcounter : c.bytesSinceLastFlush ≤ 0x10000)
      (hbuffs : buffs ≠ [] ∧ [] ∉ buffs.tail) (hnew : v ∉ versions s₀.fs name true) (hdue : Due buffs.flatten flushed c)
      (h : Relaying capacity pack T L origin name v m mirror k s₀.fs buffs.flatten flushed c s)
  | done (data rest : List Bytes) (hbuffs : buffs = data ++ [] :: rest) (hdata : data ≠ [] ∧ [] ∉ data.tail)
      (hfinished : c.finished = true) (hcommitted : Committed T s.fs name v data.flatten)
      (hcontent : ∀ k, s.fs.lookup (dirpath name) v = some k → (s.fs.file k).content = data.flatten)
      (hsent : data.flatten.length < 2 ^ 63 → ∃ params,
        Finished capacity pack L origin name v m mirror true data.flatten params s.callbacks.others)

/-- What is relied on of a node before a write comes to it. -/
structure Prepared (T : TurboLib) (L : List Bytes) (origin name v : Bytes) (m : ℕ) (request : Write)
    (s₀ : StoreState (Callbacks Links)) : Prop where
  opening : Opening L origin name m { toWrite := request }
  version : request.version = [] ∨ request.version = v
  receives : ChainedWrite.Receives T name s₀
  answers : Answers T v request s₀
  unlinked : s₀.callbacks.others = {}

variable {request : Write} {s₀ : StoreState (Callbacks Links)} {buffs : List Bytes}

lemma leftover_of_new (hT : T.Base64) (hdir : KeyDir T fs₀ name) (hv : IsVersion T v)
    (hnew : v ∉ versions fs₀ name true) : leftover fs₀ name v = [] := by
  have hnone : fs₀.lookup (dirpath name) (v ++ [126]) = none := by
    by_contra hsome
    obtain ⟨l, hl⟩ := Option.ne_none_iff_exists'.1 hsome
    exact hnew ((hdir.mem_versions_inprogress hT).2 (.inr ⟨hv, l, hl⟩))
  rw [leftover, tempname_eq hv, FileSystem.find_concat, hnone]

lemma Prepared.relaying (hT : T.Base64) (hP : T.Printable) (hv : IsVersion T v)
    (h : Prepared T L origin name v m request s₀) {w : Writestream} {fs' : FileSystem}
    (hwrite : FileStore.write T s₀.host s₀.fs name request.version (toUnsignedShort request.copies) =
      (.accepted w, fs'))
    (hvstr : w.vstr T = v) (hnew : v ∉ versions s₀.fs name true) :
    ∃ k, Relaying capacity pack T L origin name v m mirror k s₀.fs [] none
      { (WriteCommand.create request : WriteCommand Writestream) with writer := some w } { s₀ with fs := fs' } := by
  obtain ⟨k, hstreaming⟩ := WriteCommand.streaming_of_write hT hP h.receives.keyDir h.receives.rooted h.receives.linked
    h.receives.memberId hwrite request
  rw [hvstr, leftover_of_new hT h.receives.keyDir hv hnew] at hstreaming
  exact ⟨k, hstreaming, fun _ => ⟨h.opening, h.version, h.unlinked⟩⟩

variable (hasher) in
lemma Relaying.feed_end (hT : T.Base64) (hP : T.Printable) (hv : IsVersion T v) (hc : 0 < capacity)
    (hplace : Place node L origin name m) (hdir : KeyDir T fs₀ name) (hstarted : c.started = true)
    (h : Relaying capacity pack T L origin name v m mirror k fs₀ body flushed c s) :
    let r := WriteCommand.feed (chainEnv capacity pack node mirror T hasher) (c, s) []
    r.1.finished = true ∧ Committed T r.2.fs name v body ∧
      (∀ l, r.2.fs.lookup (dirpath name) v = some l → (r.2.fs.file l).content = body) ∧
      (body.length < 2 ^ 63 →
        ∃ params, Finished capacity pack L origin name v m mirror true body params r.2.callbacks.others) := by
  have hrun : WriteCommand.feed (chainEnv capacity pack node mirror T hasher) (c, s) [] =
      (c.commit (chainEnv capacity pack node mirror T hasher) s).2 := by
    rw [WriteCommand.feed, WriteCommand.run, h.streaming.finished, if_neg Bool.false_ne_true, hstarted, if_pos rfl,
      WriteCommand.proceed, if_pos rfl, hstarted, if_pos rfl]
  obtain ⟨reader, fs', gone, hreader, hcommits, hfinished, hleft⟩ := h.streaming.commit_eq hasher
    (whenWriteFinishesOn (fun _ => true) capacity pack node mirror) hT
  have hcontent : (s.fs.file k).content = body := by simpa using h.streaming.content
  have hfile (l : ℕ) : fs'.file l = s.fs.file l := by rw [FileSystem.file, hcommits.inodes, FileSystem.file]
  rw [hrun]
  dsimp only
  rw [hleft]
  refine ⟨hfinished, ?_, fun l hl => ?_, fun hbody => ?_⟩
  · exact (UserCommandContext.committed_iff hT hP.self hv hdir h.streaming.keyDir h.streaming.lookup
      h.streaming.content hcommits).2 (.inl (Nat.zero_le _))
  · replace hl : fs'.lookup (dirpath name) v = some l := hl
    rw [hcommits.lookup, if_pos rfl] at hl
    split_ifs at hl
    obtain rfl := Option.some.inj hl
    exact (congrArg File.content (hfile k)).trans hcontent
  · have hbehind := (h.behind hbody).complete
    have hcommitted : (fs'.file reader.inode).content = body := by rw [hfile, hreader, hcontent]
    obtain ⟨-, -, hfinished'⟩ := @Behind.finish capacity pack _ node L origin name v m mirror flushed body hc hplace
      { s with fs := fs' } hbehind.named hbehind.version reader hcommitted hbody
    have hcomplete : (named v { c.instructions with isComplete := true }).isComplete = true := by
      rw [named]
      split_ifs <;> rfl
    rw [hcomplete] at hfinished'
    exact ⟨_, hfinished'⟩

lemma due_start (flushed : Option ℕ) (hflushed : flushed = none) (h : c.bytesSinceLastFlush = 0) :
    Due [] flushed c := ⟨hflushed, by simp [flushedLength, h]⟩

variable (hasher) in
theorem Phase.feed (hT : T.Base64) (hP : T.Printable) (hv : IsVersion T v) (hc : 0 < capacity) (hname : name ≠ [])
    (hplace : Place node L origin name m) (hprepared : Prepared T L origin name v m request s₀)
    (h : Phase capacity pack T L origin name v m mirror request s₀ buffs c s) {buff : Bytes}
    (hbuff : buff.length ≤ 0x10000) :
    let r := WriteCommand.feed (chainEnv capacity pack node mirror T hasher) (c, s) buff
    Phase capacity pack T L origin name v m mirror request s₀ (buffs ++ [buff]) r.1 r.2 := by
  have hrequest : request.name = name := hprepared.opening.name
  have hkeeps (k : ℕ) : Keeps (chainEnv capacity pack node mirror T hasher)
      (Relaying capacity pack T L origin name v m mirror k s₀.fs) :=
    relaying_keeps T hasher v mirror k s₀.fs hc hplace
  cases h with
  | waiting hstarted hfinished hinstructions hstore hrefused =>
    subst hstore
    have hstays (hno : FileStore.write T s.host s.fs name request.version (toUnsignedShort request.copies) =
        (.refused, s.fs)) :
        Phase capacity pack T L origin name v m mirror request s (buffs ++ [buff])
          (WriteCommand.feed (chainEnv capacity pack node mirror T hasher) (c, s) buff).1
          (WriteCommand.feed (chainEnv capacity pack node mirror T hasher) (c, s) buff).2 := by
      have hfeed : WriteCommand.feed (chainEnv capacity pack node mirror T hasher) (c, s) buff =
          ({ c with writer := none, status := 500 }, s) := by
        simp [WriteCommand.feed, WriteCommand.run, hfinished, hstarted, hinstructions, hrequest, hname, FileStore.env,
          hno, setStatus]
      rw [hfeed]
      exact .waiting hstarted hfinished hinstructions rfl (Or.inr hno)
    rcases hrefused with ⟨rfl, rfl⟩ | hno
    · rcases hprepared.answers with hno | ⟨w, fs', hwrite, hvstr, hnew⟩
      · rw [hrequest] at hno
        exact hstays hno
      · rw [hrequest] at hwrite hnew
        obtain ⟨k, hstart⟩ := @Prepared.relaying capacity pack T L origin name v m mirror request s hT hP hv hprepared
          w fs' hwrite hvstr hnew
        have hfeed : WriteCommand.feed (chainEnv capacity pack node mirror T hasher) (.create request, s) buff =
            (({ (WriteCommand.create request : WriteCommand Writestream) with writer := some w }).proceed
              (chainEnv capacity pack node mirror T hasher) buff { s with fs := fs' }).2 := by
          rw [WriteCommand.feed, WriteCommand.run_first buff s (hrequest ▸ hname)]
          simp only [FileStore.env, hrequest, hwrite]
        rw [hfeed, List.nil_append]
        by_cases hnil : buff = []
        · subst hnil
          refine .relaying k none rfl (Nat.zero_le _) ⟨by simp, by simp⟩ hnew (due_start none rfl rfl) ?_
          exact (hkeeps k).touch hstart rfl rfl rfl rfl
        · obtain ⟨-, hcounter, flushed, h', hdue⟩ := (hkeeps k).consume none hstart (Nat.zero_le _) hbuff
          rw [WriteCommand.proceed, if_neg hnil]
          refine .relaying k flushed (WriteCommand.consume_flags _ _ _).1 hcounter ⟨by simp, by simp⟩ hnew ?_ ?_
          · simpa using hdue (due_start none rfl rfl)
          · simpa using h'
    · exact hstays hno
  | relaying k flushed hstarted hcounter hbuffs hnew hdue h =>
    by_cases hnil : buff = []
    · subst hnil
      obtain ⟨hfinished, hcommitted, hcontent, hsent⟩ := h.feed_end hasher hT hP hv hc hplace
        hprepared.receives.keyDir hstarted
      exact .done buffs [] rfl hbuffs hfinished hcommitted hcontent hsent
    · obtain ⟨hstarted', hcounter', flushed', h', hdue'⟩ := (hkeeps k).feed flushed hstarted hcounter h hnil hbuff
      have hflatten : (buffs ++ [buff]).flatten = buffs.flatten ++ buff := by simp
      refine .relaying k flushed' hstarted' hcounter' ⟨by simp, ?_⟩ hnew (hflatten ▸ hdue' hdue) (hflatten ▸ h')
      rw [List.tail_append_of_ne_nil hbuffs.1, List.mem_append, not_or]
      exact ⟨hbuffs.2, by simpa using Ne.symm hnil⟩
  | done data rest hbuffs hdata hfinished hcommitted hcontent hsent =>
    have hfeed : WriteCommand.feed (chainEnv capacity pack node mirror T hasher) (c, s) buff = (c, s) := by
      simp [WriteCommand.feed, WriteCommand.run, hfinished]
    rw [hfeed]
    exact .done data (rest ++ [buff]) (by simp [hbuffs]) hdata hfinished hcommitted hcontent hsent

/-- The content of a write by its buffers: the first, and those after it up to an empty one. -/
def contentOf (buffs : List Bytes) : Bytes := (buffs.take 1 ++ buffs.tail.takeWhile (· ≠ [])).flatten

lemma contentOf_going (h : [] ∉ buffs.tail) : contentOf buffs = buffs.flatten := by
  have hall : buffs.tail.takeWhile (· ≠ []) = buffs.tail := by
    apply List.takeWhile_eq_self_iff.2
    intro b hb
    simpa using fun hnil : b = [] => h (hnil ▸ hb)
  rw [contentOf, hall, ← List.drop_one, List.take_append_drop]

lemma contentOf_extends (buffs more : List Bytes) : contentOf buffs <+: contentOf (buffs ++ more) := by
  cases buffs with
  | nil => exact List.nil_prefix
  | cons b buffs =>
    have hwhile : buffs.takeWhile (· ≠ []) <+: (buffs ++ more).takeWhile (· ≠ []) := by
      have htake : ((buffs ++ more).takeWhile (· ≠ [])).take buffs.length = buffs.takeWhile (· ≠ []) := by
        rw [List.take_takeWhile, List.take_left]
      rw [← htake]
      exact List.take_prefix _ _
    simp only [contentOf, List.cons_append, List.tail_cons, List.take_succ_cons, List.take_zero]
    exact (List.prefix_append_right_inj _).2 hwhile.flatten

lemma contentOf_ended {data rest : List Bytes} (hne : data ≠ []) (h : [] ∉ data.tail) :
    contentOf (data ++ [] :: rest) = data.flatten := by
  cases data with
  | nil => exact absurd rfl hne
  | cons b data =>
    have hall : (data ++ [] :: rest).takeWhile (· ≠ []) = data := by
      rw [List.takeWhile_append_of_pos]
      · simp
      · intro b hb
        simpa using fun hnil : b = [] => h (hnil ▸ hb)
    rw [contentOf, List.cons_append, List.tail_cons, hall]
    rfl

lemma lastFlush_lt {n e : ℕ} (h : lastFlush n = some e) : e < n := by
  rw [lastFlush] at h
  split_ifs at h with hshort
  obtain rfl := Option.some.inj h
  rw [flushedLength]
  omega

inductive Sent (capacity : ℕ) (pack : Write → Bytes) (L : List Bytes) (origin name v : Bytes) (m : ℕ) (content : Bytes)
    (finished : Bool) (links : Links) : Prop
  | nothing (hconns : links.conns = [])
  | packets (peer : PeerPtr) (stream : Outstream) (data tail : List Bytes) (hconns : links.conns = [(peer, stream)])
      (hpeer : L[m]? = some peer.peer.uid)
      (htaken : stream.conn.writer.taken =
        WriteSupervisor.reqHeader pack (requestTo L origin name v (m + 1)) :: (data ++ tail))
      (hdata : [] ∉ data ∧ ∀ d ∈ data, d.length ≤ capacity) (hextends : data.flatten <+: content)
      (htail : tail = [] ∨ tail = [[]] ∧ finished = true ∧ data.flatten = content)

lemma ChainWrite.Linked.sent {e : ℕ} {tail : List Bytes} {outstream : Option ℕ} {finished : Bool}
    (h : Linked capacity pack L origin name v m e body tail outstream links.conns)
    (htail : tail = [] ∨ tail = [[]] ∧ finished = true ∧ body.length ≤ e) :
    Sent capacity pack L origin name v m body finished links := by
  rw [Linked] at h
  cases hnext : L[m]? with
  | none =>
    rw [hnext] at h
    exact .nothing h.2
  | some uid =>
    rw [hnext] at h
    obtain ⟨-, peer, stream, hconns, rfl, -, hrequest, data, hcut, htaken⟩ := h
    refine .packets peer stream data tail hconns hnext ?_ ⟨hcut.nonempty, hcut.small⟩ ?_ ?_
    · rw [htaken, hrequest]
      simp
    · rw [hcut.flatten]
      exact List.take_prefix e body
    · apply htail.imp_right
      rintro ⟨rfl, hfinished, hall⟩
      exact ⟨rfl, hfinished, by rw [hcut.flatten, List.take_of_length_le hall]⟩

section Phase

variable (h : Phase capacity pack T L origin name v m mirror request s₀ buffs c s)

include h

lemma Phase.sent (hprepared : Prepared T L origin name v m request s₀) (hbound : (contentOf buffs).length < 2 ^ 63) :
    Sent capacity pack L origin name v m (contentOf buffs) c.finished s.callbacks.others := by
  cases h with
  | waiting hstarted hfinished hinstructions hstore hrefused =>
    refine .nothing ?_
    rw [hstore, hprepared.unlinked]
  | relaying k flushed hstarted hcounter hbuffs hnew hdue h =>
    rw [contentOf_going hbuffs.2] at hbound ⊢
    have hbehind := h.behind hbound
    cases flushed with
    | none => exact .nothing (by rw [hbehind.2.2])
    | some e => exact hbehind.2.2.2.1.sent (.inl rfl)
  | done data rest hbuffs hdata hfinished hcommitted hcontent hsent =>
    have hdone : contentOf buffs = data.flatten := hbuffs ▸ contentOf_ended hdata.1 hdata.2
    rw [hdone] at hbound ⊢
    obtain ⟨params, hsent⟩ := hsent hbound
    exact hsent.linked.sent (.inr ⟨rfl, hfinished, le_rfl⟩)

lemma Phase.acked (hprepared : Prepared T L origin name v m request s₀) (hbound : (contentOf buffs).length < 2 ^ 63) :
    ∀ ack ∈ s.callbacks.others.acks, mirror = true ∧ L.length ≤ m + 1 ∧ (m ≠ 0 → ack.1.peer.uid = origin) ∧
      ack.2.name = name ∧ ack.2.version = v ∧ ack.2.size ≤ (contentOf buffs).length ∧
      (c.finished = false → ack.2.size < (contentOf buffs).length) := by
  intro ack hack
  cases h with
  | waiting hstarted hfinished hinstructions hstore hrefused =>
    rw [hstore, hprepared.unlinked] at hack
    exact absurd hack List.not_mem_nil
  | relaying k flushed hstarted hcounter hbuffs hnew hdue h =>
    rw [contentOf_going hbuffs.2] at hbound ⊢
    have hbehind := h.behind hbound
    cases flushed with
    | none =>
      rw [hbehind.2.2] at hack
      exact absurd hack List.not_mem_nil
    | some e =>
      obtain ⟨hmirror, hlast, horigin, hname, hversion, hsize⟩ := hbehind.2.2.2.2 ack hack
      have hlt := lastFlush_lt hdue.flushed.symm
      exact ⟨hmirror, hlast, horigin, hname, hversion, by omega, fun _ => by omega⟩
  | done data rest hbuffs hdata hfinished hcommitted hcontent hsent =>
    have hdone : contentOf buffs = data.flatten := hbuffs ▸ contentOf_ended hdata.1 hdata.2
    rw [hdone] at hbound ⊢
    obtain ⟨params, hsent⟩ := hsent hbound
    obtain ⟨hmirror, hlast, horigin, hname, hversion, hsize⟩ := hsent.acked ack hack
    exact ⟨hmirror, hlast, horigin, hname, hversion, hsize, by simp [hfinished]⟩

lemma Phase.nothing (hbuffs : buffs = []) : s = s₀ ∧ c.finished = false := by
  subst hbuffs
  cases h with
  | waiting hstarted hfinished hinstructions hstore hrefused => exact ⟨hstore, hfinished⟩
  | relaying k flushed hstarted hcounter hbuffs hnew hdue h => exact absurd rfl hbuffs.1
  | done data rest hbuffs hdata hfinished hcommitted hcontent hsent => simp at hbuffs

lemma Phase.ended (hfinished : c.finished = true) : [] ∈ buffs.tail ∧ Committed T s.fs name v (contentOf buffs) ∧
    ∀ k, s.fs.lookup (dirpath name) v = some k → (s.fs.file k).content = contentOf buffs := by
  cases h with
  | waiting hstarted hfinished' hinstructions hstore hrefused => simp [hfinished'] at hfinished
  | relaying k flushed hstarted hcounter hbuffs hnew hdue h => simp [h.streaming.finished] at hfinished
  | done data rest hbuffs hdata hfinished hcommitted hcontent hsent =>
    have hdone : contentOf buffs = data.flatten := hbuffs ▸ contentOf_ended hdata.1 hdata.2
    rw [hdone, hbuffs, List.tail_append_of_ne_nil hdata.1]
    exact ⟨by simp, hcommitted, hcontent⟩

lemma Phase.sent_end (hbound : (contentOf buffs).length < 2 ^ 63) (hfinished : c.finished = true) (hm : m < L.length) :
    ∃ peer stream data, s.callbacks.others.conns = [(peer, stream)] ∧
      stream.conn.writer.taken = WriteSupervisor.reqHeader pack stream.request :: (data ++ [[]]) := by
  cases h with
  | waiting hstarted hfinished' hinstructions hstore hrefused => simp [hfinished'] at hfinished
  | relaying k flushed hstarted hcounter hbuffs hnew hdue h => simp [h.streaming.finished] at hfinished
  | done data rest hbuffs hdata hfinished hcommitted hcontent hsent =>
    have hdone : contentOf buffs = data.flatten := hbuffs ▸ contentOf_ended hdata.1 hdata.2
    rw [hdone] at hbound
    obtain ⟨params, hsent⟩ := hsent hbound
    have hlinked := hsent.linked
    rw [Linked, List.getElem?_eq_getElem hm] at hlinked
    obtain ⟨-, peer, stream, hconns, -, -, -, sent, -, htaken⟩ := hlinked
    exact ⟨peer, stream, sent, hconns, by simpa using htaken⟩

lemma Phase.going (hT : T.Base64) (hv : IsVersion T v) (hprepared : Prepared T L origin name v m request s₀)
    (hfinished : c.finished = false) : s = s₀ ∨ s.fs.lookup (dirpath name) v = none := by
  cases h with
  | waiting hstarted hfinished' hinstructions hstore hrefused => exact .inl hstore
  | relaying k flushed hstarted hcounter hbuffs hnew hdue h =>
    have htemp : v ++ [126] ≠ v := by simp
    rw [h.streaming.lookup, if_neg htemp]
    rw [hprepared.receives.keyDir.mem_versions_inprogress hT, not_or] at hnew
    refine .inr (by_contra fun hsome => hnew.1 ?_)
    exact (hprepared.receives.keyDir.mem_versions hT).2 ⟨hv, Option.ne_none_iff_exists'.1 hsome⟩
  | done data rest hbuffs hdata hfinished' hcommitted hcontent hsent => simp [hfinished'] at hfinished

lemma Phase.accepted (hended : [] ∈ buffs.tail)
    (haccepts : FileStore.write T s₀.host s₀.fs name request.version (toUnsignedShort request.copies) ≠
      (.refused, s₀.fs)) : c.finished = true := by
  cases h with
  | waiting hstarted hfinished hinstructions hstore hrefused =>
    rcases hrefused with ⟨rfl, -⟩ | hrefused
    · exact absurd hended List.not_mem_nil
    · exact absurd hrefused haccepts
  | relaying k flushed hstarted hcounter hbuffs hnew hdue h => exact absurd hended hbuffs.2
  | done data rest hbuffs hdata hfinished hcommitted hcontent hsent => exact hfinished

end Phase

end Relay

end Turbopump
