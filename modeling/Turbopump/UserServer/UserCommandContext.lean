import Turbopump.Api.StreamedWrite
import Turbopump.Storage.Isolation

/-! A write over HTTP: the context of the request hands each piece of its body to a write command, and answers when the
message is complete. -/

namespace Turbopump

open FileStore

structure UserCommandContext (ω : Type) where
  status : ℕ
  command : Option (WriteCommand ω)

namespace UserCommandContext

variable {σ ω ρ : Type} (E : WriteEnv σ ω ρ)

def onBegin (command : Option (WriteCommand ω)) : UserCommandContext ω :=
  { status := if command.isNone then 400 else 0, command := command }

/-- `none` is an exception that nothing catches. -/
def onBody (data : Bytes) (x : UserCommandContext ω) (s : σ) : Option (UserCommandContext ω × σ) := match x.command with
  | none => some (x, s)
  | some c =>
    if x.status = 0 then match c.run E data s with
      | (.threw, _) => none
      | (.returned res, c, s) =>
        some ({ status := if c.status = 0 && !res then 500 else c.status, command := some c }, s)
    else some (x, s)

def onComplete (x : UserCommandContext ω) (s : σ) : Option (ℕ × σ) := match x.command with
  | none => some (if x.status = 0 then 406 else x.status, s)
  | some c =>
    if x.status = 0 then match c.run E [] s with
      | (.threw, _) => none
      | (.returned res, c, s) => some (if c.status = 0 then (if res then 200 else 500) else c.status, s)
    else some (x.status, s)

def onBodies (chunks : List Bytes) (x : UserCommandContext ω) (s : σ) : Option (UserCommandContext ω × σ) :=
  chunks.foldlM (fun p data => onBody E data p.1 p.2) (x, s)

def respond (request : Write) (chunks : List Bytes) (s : σ) : Option (ℕ × σ) :=
  (onBodies E chunks (onBegin (some (.create request))) s).bind fun p => onComplete E p.1 p.2

end UserCommandContext

namespace FileStore

/-- The store where `create_directories` throws if a file is in the way. -/
def throwingEnv {κ : Type} (T : TurboLib) (hasher : Bytes → Bytes)
    (onCommit : WriteInstructions → Readstream → StoreState κ → WriteInstructions × StoreState κ) :
    WriteEnv (StoreState κ) Writestream Readstream :=
  { FileStore.env T hasher onCommit with
    store := fun request s =>
      let session : CompleteWrite := ⟨s.host, request.version, toUnsignedShort request.copies, []⟩
      if (session.opened T s.fs request.name).isSome && s.fs.blocked (dirpath request.name) then (.threw, s)
      else (FileStore.env T hasher onCommit).store request s }

structure Committed (T : TurboLib) (fs : FileSystem) (n v content : Bytes) : Prop where
  finished : (stored fs n v).map File.content = some content ∨
    ∃ u ∈ versions fs n false, VectorClock.compareNames T u v = .greaterThan
  temp : fs.find (tempname n v) = none

end FileStore

namespace UserCommandContext

section Requests

variable {κ : Type} {T : TurboLib} {hasher : Bytes → Bytes} {request : Write} {chunks : List Bytes}
  {s s₁ : StoreState κ}
  {onCommit : WriteInstructions → Readstream → StoreState κ → WriteInstructions × StoreState κ}

variable (T hasher onCommit request chunks s) in
def Truthful : Prop :=
  ∀ status s', respond (throwingEnv T hasher onCommit) request chunks s = some (status, s') → status / 100 = 2 →
    ∃ w s₁, (throwingEnv T hasher onCommit).store request s = (.accepted w, s₁) ∧
      Committed T s'.fs request.name (w.vstr T) chunks.flatten

variable {n v old body : Bytes} {k : ℕ} {fs₀ : FileSystem} {c : WriteCommand Writestream}

variable (hasher) in
lemma onBody_streaming (hfs : ∀ params reader s, (onCommit params reader s).2.fs = s.fs)
    (hincomplete : ∀ params reader s, params.isComplete = false → (onCommit params reader s).1.isComplete = false)
    (hstarted : c.started = true) (hcounter : c.bytesSinceLastFlush ≤ 0x10000)
    (h : c.Streaming T n v old body k fs₀ s) {data : Bytes} (hdata : data ≠ []) (hsize : data.length ≤ 0x10000) :
    ∃ c' s', onBody (throwingEnv T hasher onCommit) data ⟨0, some c⟩ s = some (⟨0, some c'⟩, s') ∧ c'.started = true ∧
      c'.bytesSinceLastFlush ≤ 0x10000 ∧ c'.Streaming T n v old (body ++ data) k fs₀ s' := by
  have hrun : c.run (throwingEnv T hasher onCommit) data s = c.consume (FileStore.env T hasher onCommit) data s := by
    rw [WriteCommand.run, h.finished, if_neg Bool.false_ne_true, hstarted, if_pos rfl, WriteCommand.proceed,
      if_neg hdata]
    apply WriteCommand.consume_store
  obtain ⟨hres, hcounter', _, hstream, -⟩ :=
    (WriteCommand.streaming_keeps T hasher n v old k fs₀ hfs hincomplete).consume none h hcounter hsize
  refine ⟨_, _, ?_, (WriteCommand.consume_flags c data s).1, hcounter', hstream⟩
  simp only [onBody, hrun, if_true]
  rw [← Prod.mk.eta (p := c.consume (FileStore.env T hasher onCommit) data s), hres]
  simp [hstream.status]

variable (hasher) in
lemma onBodies_streaming (hfs : ∀ params reader s, (onCommit params reader s).2.fs = s.fs)
    (hincomplete : ∀ params reader s, params.isComplete = false → (onCommit params reader s).1.isComplete = false)
    (hstarted : c.started = true) (hcounter : c.bytesSinceLastFlush ≤ 0x10000)
    (h : c.Streaming T n v old body k fs₀ s) (hchunks : ∀ b ∈ chunks, b ≠ [] ∧ b.length ≤ 0x10000) :
    ∃ c' s', onBodies (throwingEnv T hasher onCommit) chunks ⟨0, some c⟩ s = some (⟨0, some c'⟩, s') ∧
      c'.started = true ∧
      c'.Streaming T n v old (body ++ chunks.flatten) k fs₀ s' := by
  induction chunks generalizing c s body with
  | nil =>
    rw [List.flatten_nil, List.append_nil]
    exact ⟨c, s, rfl, hstarted, h⟩
  | cons b chunks ih =>
    obtain ⟨⟨hb, hsize⟩, hrest⟩ := List.forall_mem_cons.1 hchunks
    obtain ⟨c₁, s₁, hbody, hstarted₁, hcounter₁, h₁⟩ := onBody_streaming hasher hfs hincomplete hstarted
      hcounter h hb hsize
    obtain ⟨c', s', hbodies, hstarted', h'⟩ := ih hstarted₁ hcounter₁ h₁ hrest
    refine ⟨c', s', ?_, hstarted', ?_⟩
    · rw [onBodies, List.foldlM_cons, hbody]
      exact hbodies
    · rw [List.flatten_cons, ← List.append_assoc]
      exact h'

lemma onBodies_failed {σ ω ρ : Type} {E : WriteEnv σ ω ρ} {x : UserCommandContext ω} (h : x.status ≠ 0)
    (chunks : List Bytes)
    (s : σ) : onBodies E chunks x s = some (x, s) := by
  induction chunks with
  | nil => rfl
  | cons b chunks ih =>
    have hbody : onBody E b x s = some (x, s) := by
      cases hc : x.command with
      | none => simp only [onBody, hc]
      | some c => simp only [onBody, hc, if_neg h]
    rw [onBodies, List.foldlM_cons, hbody]
    exact ih

lemma respond_cons {σ ω ρ : Type} (E : WriteEnv σ ω ρ) (b : Bytes) (chunks : List Bytes) (s : σ) :
    respond E request (b :: chunks) s = (onBody E b ⟨0, some (.create request)⟩ s).bind fun p =>
      (onBodies E chunks p.1 p.2).bind fun q => onComplete E q.1 q.2 := by
  rw [respond, onBodies, List.foldlM_cons]
  exact Option.bind_assoc ..

lemma respond_refused {σ ω ρ : Type} {E : WriteEnv σ ω ρ} {s : σ} (hname : request.name ≠ [])
    (hno : ∀ w, (E.store request s).1 ≠ .accepted w) {status : ℕ} {s' : σ}
    (h : respond E request chunks s = some (status, s')) : status = 500 := by
  have hrun (data : Bytes) : (∃ c s₁, c.status = 500 ∧
      (WriteCommand.create request : WriteCommand ω).run E data s = (.returned false, c, s₁)) ∨
      ∃ r, (WriteCommand.create request : WriteCommand ω).run E data s = (.threw, r) := by
    rw [WriteCommand.run_first data s hname]
    cases hstore : E.store request s with
    | mk answer s₁ =>
      cases answer with
      | accepted w => exact absurd (congrArg Prod.fst hstore) (hno w)
      | refused => exact .inl ⟨_, s₁, rfl, rfl⟩
      | threw => exact .inr ⟨_, rfl⟩
  cases chunks with
  | nil =>
    change onComplete E ⟨0, some (.create request)⟩ s = _ at h
    rcases hrun [] with ⟨c, s₁, hc, hrun⟩ | ⟨r, hthrew⟩
    · simp only [onComplete, hrun, hc] at h
      exact (Prod.mk.inj (Option.some.inj h)).1.symm
    · simp [onComplete, hthrew] at h
  | cons b chunks =>
    rw [respond_cons] at h
    rcases hrun b with ⟨c, s₁, hc, hrun⟩ | ⟨r, hthrew⟩
    · have hbody : onBody E b ⟨0, some (.create request)⟩ s = some (⟨500, some c⟩, s₁) := by
        simp [onBody, hrun, hc]
      have hfailed : onBodies E chunks ⟨500, some c⟩ s₁ = some (⟨500, some c⟩, s₁) :=
        onBodies_failed (by simp) chunks s₁
      rw [hbody, Option.bind_some, hfailed] at h
      exact (Prod.mk.inj (Option.some.inj h)).1.symm
    · simp [onBody, hthrew] at h

lemma respond_empty {σ ω ρ : Type} {E : WriteEnv σ ω ρ} {s s₁ : σ} {w : ω} (hname : request.name ≠ [])
    (haccept : E.store request s = (.accepted w, s₁)) : respond E request [] s = some (200, s₁) := by
  change onComplete E ⟨0, some (.create request)⟩ s = _
  have hrun : (WriteCommand.create request : WriteCommand ω).run E [] s =
      (.returned true,
        { (WriteCommand.create request : WriteCommand ω) with started := true, writer := some w }, s₁) := by
    rw [WriteCommand.run_first [] s hname, haccept]
    rfl
  simp only [onComplete, hrun]
  rfl

lemma store_accepted {w : Writestream} (h : (throwingEnv T hasher onCommit).store request s = (.accepted w, s₁)) :
    FileStore.write T s.host s.fs request.name request.version (toUnsignedShort request.copies) = (.accepted w, s₁.fs) ∧
      s₁ = { s with fs := s₁.fs } := by
  simp only [throwingEnv, FileStore.env] at h
  split_ifs at h
  · simp at h
  · obtain ⟨hanswer, rfl⟩ := Prod.mk.inj h
    exact ⟨Prod.ext hanswer rfl, rfl⟩

variable (hasher) in
lemma respond_streamed (hT : T.Base64) (hP : T.Printable)
    (hfs : ∀ params reader s, (onCommit params reader s).2.fs = s.fs)
    (hincomplete : ∀ params reader s, params.isComplete = false → (onCommit params reader s).1.isComplete = false)
    (hdir : KeyDir T s.fs request.name) (hr : s.fs.Rooted)
    (hlinked : ∀ nm k, s.fs.lookup (dirpath request.name) nm = some k → k < s.fs.inodes.length)
    (hid : ∀ b ∈ s.host.memberId, isPlain b) (hname : request.name ≠ []) {w : Writestream}
    (haccept : (throwingEnv T hasher onCommit).store request s = (.accepted w, s₁)) (hne : chunks ≠ [])
    (hchunks : ∀ b ∈ chunks, b ≠ [] ∧ b.length ≤ 0x10000) :
    ∃ k gone fs s', respond (throwingEnv T hasher onCommit) request chunks s = some (200, s') ∧
      (fs.file k).content = chunks.flatten ++ (leftover s.fs request.name (w.vstr T)).drop chunks.flatten.length ∧
      (∀ nm, fs.lookup (dirpath request.name) nm =
        if w.vstr T ++ [126] = nm then some k else s.fs.lookup (dirpath request.name) nm) ∧
      KeyDir T fs request.name ∧ Commits T fs s'.fs request.name (w.vstr T) k gone := by
  obtain ⟨b, chunks, rfl⟩ := List.exists_cons_of_ne_nil hne
  obtain ⟨⟨hb, hsize⟩, hrest⟩ := List.forall_mem_cons.1 hchunks
  obtain ⟨hwrite, hs₁⟩ := store_accepted haccept
  obtain ⟨k, hstream⟩ := WriteCommand.streaming_of_write hT hP hdir hr hlinked hid hwrite request
  rw [← hs₁] at hstream
  have hrun : (WriteCommand.create request : WriteCommand Writestream).run (throwingEnv T hasher onCommit) b s =
      ({ (WriteCommand.create request : WriteCommand Writestream) with writer := some w }).consume
        (FileStore.env T hasher onCommit) b s₁ := by
    rw [WriteCommand.run_first b s hname, haccept]
    simp only [WriteCommand.proceed, if_neg hb]
    apply WriteCommand.consume_store
  obtain ⟨hres, hcounter, _, hstream₁, -⟩ := (WriteCommand.streaming_keeps T hasher request.name (w.vstr T)
    (leftover s.fs request.name (w.vstr T)) k s.fs hfs hincomplete).consume none hstream (Nat.zero_le _) hsize
  have hstarted := (WriteCommand.consume_flags (E := FileStore.env T hasher onCommit)
    { (WriteCommand.create request : WriteCommand Writestream) with writer := some w } b s₁).1
  rw [← hrun] at hres hcounter hstream₁ hstarted
  generalize hfirst : (WriteCommand.create request : WriteCommand Writestream).run
    (throwingEnv T hasher onCommit) b s = first
    at hres hcounter hstream₁ hstarted
  obtain ⟨res, c₁, s₂⟩ := first
  obtain rfl : res = .returned true := hres
  have hbody : onBody (throwingEnv T hasher onCommit) b ⟨0, some (.create request)⟩ s = some (⟨0, some c₁⟩, s₂) := by
    have hstatus₁ : c₁.status = 0 := hstream₁.status
    simp [onBody, hfirst, hstatus₁]
  obtain ⟨c₂, s₃, hbodies, hstarted₂, hstream₂⟩ :=
    onBodies_streaming hasher hfs hincomplete hstarted hcounter hstream₁ hrest
  have hend : c₂.run (throwingEnv T hasher onCommit) [] s₃ = c₂.commit (FileStore.env T hasher onCommit) s₃ := by
    rw [WriteCommand.run, hstream₂.finished, if_neg Bool.false_ne_true, hstarted₂, if_pos rfl, WriteCommand.proceed,
      if_pos rfl, hstarted₂, if_pos rfl]
    apply WriteCommand.commit_store
  obtain ⟨hres', hstatus, gone, hcommits⟩ := hstream₂.commit hasher hT hfs
  rw [← hend] at hres' hstatus hcommits
  have hanswer : respond (throwingEnv T hasher onCommit) request (b :: chunks) s =
      some (200, (c₂.run (throwingEnv T hasher onCommit) [] s₃).2.2) := by
    rw [respond_cons, hbody, Option.bind_some, hbodies, Option.bind_some]
    simp only [onComplete, if_true]
    generalize c₂.run (throwingEnv T hasher onCommit) [] s₃ = last at hres' hstatus ⊢
    obtain ⟨res, c₃, s₄⟩ := last
    obtain rfl : res = .returned true := hres'
    have hstatus' : c₃.status = 200 := hstatus
    simp [hstatus']
  rw [List.nil_append, ← List.flatten_cons] at hstream₂
  exact ⟨k, gone, s₃.fs, _, hanswer, hstream₂.content, hstream₂.lookup, hstream₂.keyDir, hcommits⟩

lemma committed_iff (hT : T.Base64) (hself : ∀ v, T.compare v v = .equal) {fs fs' : FileSystem} {gone : List Bytes}
    (hv : VectorClock.IsVersion T v) (hdir : KeyDir T fs₀ n) (hdir' : KeyDir T fs n)
    (hlookup : ∀ nm, fs.lookup (dirpath n) nm = if v ++ [126] = nm then some k else fs₀.lookup (dirpath n) nm)
    (hcontent : (fs.file k).content = body ++ old.drop body.length) (hc : Commits T fs fs' n v k gone) :
    Committed T fs' n v body ↔ old.length ≤ body.length ∨
      ∃ u ∈ versions fs₀ n false, VectorClock.compareNames T u v = .greaterThan := by
  have hversions (u : Bytes) : u ∈ versions fs n false ↔ u ∈ versions fs₀ n false := by
    rw [hdir'.mem_versions hT, hdir.mem_versions hT]
    refine and_congr_right fun hu => ?_
    rw [hlookup, if_neg (temp_ne_version hT hu)]
  have hstored (hmem : v ∈ versions fs' n false) : (stored fs' n v).map File.content =
    some (body ++ old.drop body.length) := by
    have hgone := ((hc.mem_versions hT hdir' hv).1 hmem).2
    rw [stored, if_pos hmem, filepath_eq hv, FileSystem.find_concat, hc.lookup, if_neg hgone, if_pos rfl, ← hcontent]
    simp only [Option.map_some, FileSystem.file, hc.inodes]
  have hgreater (u : Bytes) (hu : VectorClock.compareNames T u v = .greaterThan) :
      u ∈ versions fs' n false ↔ u ∈ versions fs₀ n false := by
    have hne : u ≠ v := by
      rintro rfl
      rw [VectorClock.compareNames, hself] at hu
      cases hu
    rw [hc.mem_versions hT hdir' hv, hversions, or_iff_right hne, and_iff_left_iff_imp]
    intro _ hgone
    rcases (hc.gone_iff u).1 hgone with ⟨-, hless⟩ | ⟨rfl, -⟩
    · rw [hu] at hless
      cases hless
    · exact hne rfl
  constructor
  · rintro ⟨hstored' | ⟨u, hu, hgreat⟩, -⟩
    · have hmem : v ∈ versions fs' n false := by
        by_contra hmem
        simp [stored, hmem] at hstored'
      rw [hstored hmem, Option.some.injEq, List.append_right_eq_self] at hstored'
      exact .inl (List.drop_eq_nil_iff.1 hstored')
    · exact .inr ⟨u, (hgreater u hgreat).1 hu, hgreat⟩
  · intro h
    refine ⟨?_, ?_⟩
    · rcases h with hle | ⟨u, hu, hgreat⟩
      · obtain ⟨u, hu, rfl | hgreat⟩ := hc.kept hT hself hdir' hv
        · exact .inl (by rw [hstored hu, List.drop_of_length_le hle, List.append_nil])
        · exact .inr ⟨u, hu, hgreat⟩
      · exact .inr ⟨u, (hgreater u hgreat).2 hu, hgreat⟩
    · have hne : v ≠ v ++ [126] := by simp
      rw [tempname_eq hv, FileSystem.find_concat, hc.lookup, if_neg hne, if_pos rfl, ite_self]

lemma not_truthful_empty (hT : T.Base64) (hP : T.Printable) (hdir : KeyDir T s.fs request.name) (hr : s.fs.Rooted)
    (hlinked : ∀ nm k, s.fs.lookup (dirpath request.name) nm = some k → k < s.fs.inodes.length)
    (hid : ∀ b ∈ s.host.memberId, isPlain b) (hname : request.name ≠ []) {w : Writestream}
    (haccept : (throwingEnv T hasher onCommit).store request s = (.accepted w, s₁)) :
    ¬ Truthful T hasher request [] s onCommit := by
  intro h
  obtain ⟨w', s₁', haccept', hcommitted⟩ := h 200 s₁ (respond_empty hname haccept) rfl
  rw [haccept] at haccept'
  obtain ⟨hw, -⟩ := Prod.mk.inj haccept'
  obtain rfl := StoreAnswer.accepted.inj hw
  obtain ⟨hwrite, -⟩ := store_accepted haccept
  obtain ⟨k, hstream⟩ := WriteCommand.streaming_of_write hT hP hdir hr hlinked hid hwrite request
  obtain ⟨w'', hw'', hs, hv, -⟩ := hstream.writer
  have htemp := hcommitted.temp
  rw [tempname_eq (hv ▸ hs.version), FileSystem.find_concat] at htemp
  have hlookup := hstream.lookup (w.vstr T ++ [126])
  rw [if_pos rfl] at hlookup
  exact absurd (hlookup.symm.trans htemp) (by simp)

end Requests

def hello : Write := { name := ascii "hello" }

def emptyHost : StoreState Unit := ⟨.empty, ⟨ascii "me", 5⟩, ()⟩

lemma hello_accepted : ∃ w s₁, (throwingEnv TurboLib.wrapping id quiet).store hello emptyHost = (.accepted w, s₁) :=
  ⟨_, _, rfl⟩

lemma emptyHost_lookup (d : Path) (nm : Bytes) : emptyHost.fs.lookup d nm = none := by
  by_cases hd : [] = d <;> simp [emptyHost, FileSystem.empty, FileSystem.lookup, SortedMap.get_insert, hd]

lemma emptyHost_keyDir : KeyDir TurboLib.wrapping emptyHost.fs hello.name :=
  (Vacant.empty {hello.name}).tidy.keyDir rfl

end UserCommandContext

end Turbopump
