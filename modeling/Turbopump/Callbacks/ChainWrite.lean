import Turbopump.Callbacks.MirrorToPeer
import Turbopump.PeerClient.ContiguousData
import Turbopump.UserServer.UserCommandContext

/-! The write chain: the flushes of a local write go to a mirror, over a connection that one of them opens, and the
mirror's own write command commits what comes in. -/

namespace Turbopump

open FileStore WriteSupervisor
open VectorClock (IsVersion)

/-- The outcome of `chooseMirror` at a flush, with what it leaves in the instructions, and that of `open`. -/
structure MirrorChoice where
  chosen : Bool
  mirror : ℤ
  source : Bytes
  opened : Bool

def MirrorChoice.leaves (choice : MirrorChoice) (params : WriteInstructions) : WriteInstructions :=
  { params with mirror := choice.mirror, source := choice.source }

lemma MirrorToPeer.chooseMirror_leaves (locations : Bytes → ℕ → List Bytes) (membership : IKnowPeers)
    (params : WriteInstructions) (opened : Bool) : ∃ choice : MirrorChoice, choice.opened = opened ∧
      choice.chosen = (chooseMirror locations membership params).1.isSome ∧
      choice.leaves params = (chooseMirror locations membership params).2 := by
  refine ⟨⟨_, (chooseMirror locations membership params).2.mirror, (chooseMirror locations membership params).2.source,
    opened⟩, rfl, rfl, ?_⟩
  have hsource (self : PeerPtr) :
      { params with source := (withSource self params).source } = withSource self params := by
    rw [withSource]
    split_ifs <;> rfl
  by_cases hlast : toUnsigned params.copies ≤ toUnsigned params.mirror
  · simp only [chooseMirror, if_pos hlast, MirrorChoice.leaves]
  · simp only [chooseMirror, if_neg hlast, MirrorChoice.leaves]
    cases membership.self with
    | none => rfl
    | some self =>
      dsimp only
      rw [← hsource self]
      split
      · rfl
      · split
        · rfl
        · split
          · rfl
          · rfl

structure Outstream extends Transfer where
  request : Write

namespace ChainWrite

variable (takes : ℕ → Bool) (capacity : ℕ) (pack : Write → Bytes) (blocking : Bool)

def openTo (request : Write) : Outstream where
  conn := openStream takes (reqHeader pack request) blocking
  request := request

def connect (choice : MirrorChoice) (params : WriteInstructions) : WriteInstructions × Option Outstream :=
  let params := choice.leaves params
  (params, if choice.chosen && choice.opened then some (openTo takes pack blocking params.toWrite) else none)

def run (choice : MirrorChoice) (params : WriteInstructions) (contents : FileReader) (outstream : Option Outstream) :
    Bool × WriteInstructions × Option Outstream :=
  let (params, outstream) := match outstream with
    | some stream => (params, some stream)
    | none => connect takes pack blocking choice params
  match outstream with
  | none => (false, params, none)
  | some stream =>
    let (stored, transfer) := store takes capacity params contents false stream.toTransfer
    (stored, params, some { stream with toTransfer := transfer })

end ChainWrite

structure ChainedWrite where
  file : Bytes := []
  params : WriteInstructions
  finished : Bool := false
  outstream : Option Outstream := none

inductive ChainAction where
  | append (data : Bytes)
  | flush (isComplete : Bool) (choice : MirrorChoice)
  | resume (found : Bool)

namespace ChainedWrite

variable (takes : ℕ → Bool) (capacity : ℕ) (pack : Write → Bytes) (blocking : Bool)

def append (data : Bytes) (s : ChainedWrite) : ChainedWrite :=
  if s.finished ∨ 2 ^ 63 ≤ s.file.length + data.length then s else { s with file := s.file ++ data }

def flush (isComplete : Bool) (choice : MirrorChoice) (s : ChainedWrite) : ChainedWrite :=
  if s.finished then s
  else
    let (_, params, outstream) := ChainWrite.run takes capacity pack blocking choice
      { s.params with isComplete := isComplete } ⟨s.file, 0⟩ s.outstream
    { file := s.file
      -- a finished command has closed its writer, which then has no position
      params := if isComplete then params else { params with offset := s.file.length }
      finished := isComplete
      outstream := outstream }

def resume (found : Bool) (s : ChainedWrite) : ChainedWrite :=
  { s with outstream := s.outstream.map fun stream => { stream with
      toTransfer := (WriteSupervisor.resume takes capacity (if found then some ⟨s.file, 0⟩ else none)
        stream.toTransfer).2 } }

def step (s : ChainedWrite) : ChainAction → ChainedWrite
  | .append data => s.append data
  | .flush isComplete choice => s.flush takes capacity pack blocking isComplete choice
  | .resume found => s.resume takes capacity found

/-- The first flush opens the connection, the calls of `store` count what they write, and a transfer that is resumed
while the write goes on is refused a packet again. -/
def Meets (s : ChainedWrite) : ChainAction → Prop
  | .append _ => True
  | .flush _ choice => s.finished = false → match s.outstream with
    | some stream => stream.conn.background = false →
      MirrorSession.Counted takes capacity (s.file.length - s.params.offset) stream.conn
    | none => ∀ stream ∈ (ChainWrite.connect takes pack blocking choice s.params).2,
      s.params.offset = 0 ∧ MirrorSession.Counted takes capacity s.file.length stream.conn
  | .resume found => found = true → ∀ stream ∈ s.outstream, ∀ write ∈ stream.transfers.head?,
    MirrorSession.Counted takes capacity (s.file.length - write.offset) stream.conn ∧
      (s.finished = false →
        ∃ k ≤ packets capacity (s.file.length - write.offset), takes (stream.conn.writer.offered + k) = false)

end ChainedWrite

def Outstream.head (takes : ℕ → Bool) (pack : Write → Bytes) (stream : Outstream) : List Bytes :=
  if takes 0 then [reqHeader pack stream.request] else []

namespace ChainWrite

open MirrorSession (Counted Cut Stored store_stored write_empty)

variable {takes : ℕ → Bool} {capacity : ℕ} {file : Bytes} {head : List Bytes} {e : ℕ} {taken : List Bytes}

def Passed (capacity : ℕ) (head : List Bytes) (e : ℕ) (file : Bytes) (tail taken : List Bytes) : Prop :=
  ∃ data, Cut capacity data (file.take e) ∧ taken = head ++ data ++ tail

lemma Passed.append {tail : List Bytes} (h : Passed capacity head e file tail taken) (he : e ≤ file.length)
    (data : Bytes) : Passed capacity head e (file ++ data) tail taken := by
  rwa [Passed, List.take_append_of_le_length he]

lemma Passed.more {e' : ℕ} (h : Passed capacity head e file [] taken) (he : e ≤ e') {data : List Bytes}
    (hcut : Cut capacity data ((file.drop e).take (e' - e))) (tail : List Bytes) :
    Passed capacity head e' file tail (taken ++ data ++ tail) := by
  obtain ⟨before, hbefore, rfl⟩ := h
  refine ⟨before ++ data, ⟨?_, ?_, ?_⟩, by simp⟩
  · simp [hbefore.nonempty, hcut.nonempty]
  · exact List.forall_mem_append.2 ⟨hbefore.small, hcut.small⟩
  · rw [List.flatten_append, hbefore.flatten, hcut.flatten, ← List.take_add, Nat.add_sub_cancel' he]

inductive Left (takes : ℕ → Bool) (capacity : ℕ) (head : List Bytes) (write : WriteInstructions) (file : Bytes)
    (t t' : Transfer) : Prop
  | handed (next : WriteInstructions) (hbackground : t'.conn.background = true) (htransfers : t'.transfers = [next])
      (hfile : next.offset ≤ file.length)
      (hpassed : Passed capacity head next.offset file [] t'.conn.writer.taken)
  | streamed (hbackground : t'.conn.background = t.conn.background) (htransfers : t'.transfers = [])
      (hpassed : Passed capacity head file.length file [] t'.conn.writer.taken)
  | ended (hcomplete : write.isComplete = true) (htransfers : t'.transfers = [])
      (htaken : ∀ k ≤ packets capacity (file.length - write.offset), takes (t.conn.writer.offered + k) = true)
      (hpassed : Passed capacity head file.length file [[]] t'.conn.writer.taken)

lemma Passed.store (hc : 0 < capacity) {write : WriteInstructions} {t : Transfer}
    (h : Passed capacity head write.offset file [] t.conn.writer.taken) (htransfers : t.transfers = [])
    (background : Bool) (hlive : t.conn.background = true → background = true)
    (hblocks : t.conn.blocking = true → t.conn.full = false)
    (hoffset : write.offset ≤ file.length) (hfile : file.length < 2 ^ 63)
    (hcount : Counted takes capacity (file.length - write.offset) t.conn) :
    let t' := (store takes capacity write ⟨file, 0⟩ background t).2
    (t'.conn.blocking = true → t'.conn.full = false) ∧ Left takes capacity head write file t t' := by
  cases store_stored hc hlive hblocks hoffset hfile hcount with
  | handed next data hblocking hbackground htransfers' hcomplete hle hnext hcut htaken =>
    refine ⟨by simp [hblocking], .handed next hbackground (by rw [htransfers', htransfers]; rfl) hnext ?_⟩
    rw [htaken]
    simpa using h.more hle hcut []
  | streamed data ended hblocks' hbackground htransfers' hcut hended htaken =>
    refine ⟨hblocks', ?_⟩
    have hrest : Cut capacity data ((file.drop write.offset).take (file.length - write.offset)) := by
      rwa [← List.length_drop, List.take_length]
    cases ended with
    | false =>
      refine .streamed hbackground (htransfers'.trans htransfers) ?_
      rw [htaken]
      simpa using h.more hoffset hrest []
    | true =>
      obtain ⟨hcomplete, htakes⟩ := hended rfl
      refine .ended hcomplete (htransfers'.trans htransfers) htakes ?_
      rw [htaken]
      exact h.more hoffset hrest [[]]

end ChainWrite

namespace ChainedWrite

open ChainWrite
open MirrorSession (Counted Cut store_of_background)

variable {takes : ℕ → Bool} {capacity : ℕ} {pack : Write → Bytes} {blocking : Bool} {s : ChainedWrite}
  {stream : Outstream} {n v : Bytes}

inductive Stage (capacity : ℕ) (head : List Bytes) (file : Bytes) (offset : ℕ) (finished : Bool) (t : Transfer) : Prop
  | sending (hfinished : finished = false) (hbackground : t.conn.background = false) (htransfers : t.transfers = [])
      (hoffset : offset ≤ file.length) (hpassed : Passed capacity head offset file [] t.conn.writer.taken)
  | waiting (next : WriteInstructions) (hbackground : t.conn.background = true) (htransfers : t.transfers = [next])
      (hoffset : next.offset ≤ file.length) (hpassed : Passed capacity head next.offset file [] t.conn.writer.taken)
  | silent (e : ℕ) (hclosed : finished = true ∨ t.conn.background = true) (htransfers : t.transfers = [])
      (he : e ≤ file.length) (hpassed : Passed capacity head e file [] t.conn.writer.taken)
  | ended (hfinished : finished = true) (htransfers : t.transfers = [])
      (hpassed : Passed capacity head file.length file [[]] t.conn.writer.taken)

structure Chained (takes : ℕ → Bool) (capacity : ℕ) (pack : Write → Bytes) (n v file : Bytes) (offset : ℕ)
    (finished : Bool) (stream : Outstream) : Prop where
  stage : Stage capacity (stream.head takes pack) file offset finished stream.toTransfer
  blocks : stream.conn.blocking = true → stream.conn.full = false
  name : stream.request.name = n
  version : stream.request.version = v

structure Chaining (takes : ℕ → Bool) (capacity : ℕ) (pack : Write → Bytes) (n v : Bytes) (s : ChainedWrite) :
    Prop where
  short : s.file.length < 2 ^ 63
  name : s.params.name = n
  version : s.params.version = v
  stream : ∀ stream ∈ s.outstream, Chained takes capacity pack n v s.file s.params.offset s.finished stream

lemma Chaining.append (h : Chaining takes capacity pack n v s) (data : Bytes) :
    Chaining takes capacity pack n v (s.append data) := by
  rw [ChainedWrite.append]
  split_ifs with hclosed
  · exact h
  · rw [not_or, Bool.not_eq_true, not_le] at hclosed
    have hfile : s.file.length ≤ (s.file ++ data).length := by simp
    refine ⟨by simpa using hclosed.2, h.name, h.version, fun stream hstream => ?_⟩
    obtain ⟨stage, hblocks, hname, hversion⟩ := h.stream stream hstream
    refine ⟨?_, hblocks, hname, hversion⟩
    cases stage with
    | sending hfinished hbackground htransfers hoffset hpassed =>
      exact .sending hfinished hbackground htransfers (hoffset.trans hfile) (hpassed.append hoffset data)
    | waiting next hbackground htransfers hoffset hpassed =>
      exact .waiting next hbackground htransfers (hoffset.trans hfile) (hpassed.append hoffset data)
    | silent e hclosed htransfers he hpassed =>
      exact .silent e hclosed htransfers (he.trans hfile) (hpassed.append he data)
    | ended hfinished => simp [hclosed.1] at hfinished

lemma chained_store (hc : 0 < capacity) {file : Bytes} (hfile : file.length < 2 ^ 63) (params : WriteInstructions)
    (h : Passed capacity (stream.head takes pack) params.offset file [] stream.conn.writer.taken)
    (hbackground : stream.conn.background = false) (htransfers : stream.transfers = [])
    (hblocks : stream.conn.blocking = true → stream.conn.full = false) (hname : stream.request.name = n)
    (hversion : stream.request.version = v) (hoffset : params.offset ≤ file.length)
    (hcount : Counted takes capacity (file.length - params.offset) stream.conn) :
    Chained takes capacity pack n v file (if params.isComplete then params.offset else file.length) params.isComplete
      { stream with toTransfer := (store takes capacity params ⟨file, 0⟩ false stream.toTransfer).2 } := by
  obtain ⟨hblocks', hleft⟩ := h.store hc htransfers false (by simp [hbackground]) hblocks hoffset
    hfile hcount
  refine ⟨?_, hblocks', hname, hversion⟩
  cases hleft with
  | handed next hbackground' htransfers' hnext hpassed => exact .waiting next hbackground' htransfers' hnext hpassed
  | streamed hbackground' htransfers' hpassed =>
    cases hcomplete : params.isComplete with
    | false => exact .sending rfl (hbackground'.trans hbackground) htransfers' le_rfl hpassed
    | true => exact .silent _ (.inl rfl) htransfers' le_rfl hpassed
  | ended hcomplete htransfers' _ hpassed => exact .ended hcomplete htransfers' hpassed

lemma openTo_head (request : Write) : (openTo takes pack blocking request).conn.writer.taken =
    (openTo takes pack blocking request).head takes pack := by
  cases htakes : takes 0 <;> cases blocking <;>
    simp [openTo, openStream, ConnectionWriteStream.write, SocketWriter.send, Outstream.head, htakes]

lemma openTo_conn (request : Write) : (openTo takes pack blocking request).conn.background = false ∧
    ((openTo takes pack blocking request).conn.blocking = true →
      (openTo takes pack blocking request).conn.full = false) := by
  cases blocking <;> simp [openTo, openStream, ConnectionWriteStream.write]

lemma Chaining.flush (hc : 0 < capacity) (h : Chaining takes capacity pack n v s) {isComplete : Bool}
    {choice : MirrorChoice} (hmeets : s.Meets takes capacity pack blocking (.flush isComplete choice)) :
    Chaining takes capacity pack n v (s.flush takes capacity pack blocking isComplete choice) := by
  by_cases hfinished : s.finished = true
  · rw [ChainedWrite.flush, if_pos hfinished]
    exact h
  rw [ChainedWrite.flush, if_neg hfinished]
  rw [Bool.not_eq_true] at hfinished
  replace hmeets := hmeets hfinished
  have hsame (params : WriteInstructions) (hname : params.name = n) (hversion : params.version = v) :
      (if isComplete then params else { params with offset := s.file.length }).name = n ∧
        (if isComplete then params else { params with offset := s.file.length }).version = v := by
    cases isComplete
    · exact ⟨hname, hversion⟩
    · exact ⟨hname, hversion⟩
  cases houtstream : s.outstream with
  | none =>
    rw [houtstream] at hmeets
    cases hopens : choice.chosen && choice.opened with
    | false =>
      obtain ⟨hname, hversion⟩ := hsame (choice.leaves { s.params with isComplete := isComplete }) h.name h.version
      simp only [ChainWrite.run, connect, hopens, Bool.false_eq_true, if_false]
      exact ⟨h.short, hname, hversion, by simp⟩
    | true =>
      obtain ⟨hoffset, hcount⟩ := hmeets (openTo takes pack blocking (choice.leaves s.params).toWrite)
        (by simp [connect, hopens])
      obtain ⟨hbackground, hblocks⟩ := @openTo_conn takes pack blocking (choice.leaves s.params).toWrite
      obtain ⟨hname, hversion⟩ := hsame (choice.leaves { s.params with isComplete := isComplete }) h.name h.version
      simp only [ChainWrite.run, connect, hopens, if_true]
      refine ⟨h.short, hname, hversion, ?_⟩
      rintro _ ⟨⟩
      have hpassed : Passed capacity ((openTo takes pack blocking (choice.leaves s.params).toWrite).head takes pack)
          s.params.offset s.file []
          (openTo takes pack blocking (choice.leaves s.params).toWrite).conn.writer.taken :=
        ⟨[], ⟨by simp, by simp, by simp [hoffset]⟩, by simp [openTo_head]⟩
      have hchained := chained_store hc h.short (choice.leaves { s.params with isComplete := isComplete }) hpassed
        hbackground rfl hblocks h.name h.version (hoffset.trans_le (Nat.zero_le _))
        (by simpa [MirrorChoice.leaves, hoffset] using hcount)
      cases isComplete
      · exact hchained
      · exact hchained
  | some stream =>
    rw [houtstream] at hmeets
    obtain ⟨stage, hblocks, hname, hversion⟩ := h.stream stream houtstream
    obtain ⟨hname', hversion'⟩ := hsame { s.params with isComplete := isComplete } h.name h.version
    simp only [ChainWrite.run]
    refine ⟨h.short, hname', hversion', ?_⟩
    rintro _ ⟨⟩
    cases hbackground : stream.conn.background with
    | true =>
      simp only [store_of_background hbackground]
      refine ⟨?_, hblocks, hname, hversion⟩
      cases stage with
      | sending _ hbackground' => simp [hbackground] at hbackground'
      | waiting next hbackground htransfers hoffset hpassed =>
        exact .waiting next hbackground htransfers hoffset hpassed
      | silent e hclosed htransfers he hpassed => exact .silent e (.inr hbackground) htransfers he hpassed
      | ended hfinished' => simp [hfinished] at hfinished'
    | false =>
      cases stage with
      | waiting _ hbackground' => simp [hbackground] at hbackground'
      | silent _ hclosed => simp [hbackground, hfinished] at hclosed
      | ended hfinished' => simp [hfinished] at hfinished'
      | sending _ _ htransfers hoffset hpassed =>
        have hchained := chained_store hc h.short { s.params with isComplete := isComplete } hpassed hbackground
          htransfers hblocks hname hversion hoffset (hmeets hbackground)
        cases isComplete
        · exact hchained
        · exact hchained

lemma Chaining.resume (hc : 0 < capacity) (h : Chaining takes capacity pack n v s) {found : Bool}
    (hmeets : s.Meets takes capacity pack blocking (.resume found)) :
    Chaining takes capacity pack n v (s.resume takes capacity found) := by
  refine ⟨h.short, h.name, h.version, ?_⟩
  intro resumed hresumed
  obtain ⟨stream, hstream, rfl⟩ := Option.map_eq_some_iff.1 hresumed
  obtain ⟨stage, hblocks, hname, hversion⟩ := h.stream stream hstream
  have hidle (htransfers : stream.transfers = []) : (WriteSupervisor.resume takes capacity
      (if found then some ⟨s.file, 0⟩ else none) stream.toTransfer).2 = stream.toTransfer := by
    simp [WriteSupervisor.resume, htransfers]
  cases stage with
  | sending hfinished hbackground htransfers hoffset hpassed =>
    rw [hidle htransfers]
    exact ⟨.sending hfinished hbackground htransfers hoffset hpassed, hblocks, hname, hversion⟩
  | silent e hclosed htransfers he hpassed =>
    rw [hidle htransfers]
    exact ⟨.silent e hclosed htransfers he hpassed, hblocks, hname, hversion⟩
  | ended hfinished htransfers hpassed =>
    rw [hidle htransfers]
    exact ⟨.ended hfinished htransfers hpassed, hblocks, hname, hversion⟩
  | waiting next hbackground htransfers hoffset hpassed =>
    cases found with
    | false =>
      simp only [WriteSupervisor.resume, htransfers, Bool.false_eq_true, if_false]
      exact ⟨.silent _ (.inr hbackground) rfl hoffset hpassed, hblocks, hname, hversion⟩
    | true =>
      obtain ⟨hcount, hrefused⟩ := hmeets rfl stream hstream next (by rw [htransfers]; rfl)
      obtain ⟨hblocks', hleft⟩ := Passed.store hc
        (t := { stream.toTransfer with transfers := [] }) hpassed rfl true (fun _ => rfl) hblocks hoffset h.short hcount
      simp only [WriteSupervisor.resume, htransfers, if_true]
      refine ⟨?_, hblocks', hname, hversion⟩
      cases hleft with
      | handed next' hbackground' htransfers' hnext hpassed' =>
        exact .waiting next' hbackground' htransfers' hnext hpassed'
      | streamed hbackground' htransfers' hpassed' =>
        exact .silent _ (.inr (hbackground'.trans hbackground)) htransfers' le_rfl hpassed'
      | ended _ htransfers' htaken hpassed' =>
        -- nothing is refused, so the write is over
        refine .ended ?_ htransfers' hpassed'
        by_contra hfinished
        obtain ⟨k, hk, hno⟩ := hrefused (Bool.not_eq_true _ ▸ hfinished)
        simp [htaken k hk] at hno

lemma Chaining.step (hc : 0 < capacity) (h : Chaining takes capacity pack n v s) {a : ChainAction}
    (hmeets : s.Meets takes capacity pack blocking a) :
    Chaining takes capacity pack n v (s.step takes capacity pack blocking a) := by
  cases a with
  | append data => exact h.append data
  | flush isComplete choice => exact h.flush hc hmeets
  | resume found => exact h.resume hc hmeets

section Mirror

variable {κ : Type} {T : TurboLib} {hasher : Bytes → Bytes} {request : Write} {data : List Bytes} {r r₁ : StoreState κ}
  {w : Writestream} {params : WriteInstructions} {actions : List ChainAction}
  {onCommit : WriteInstructions → Readstream → StoreState κ → WriteInstructions × StoreState κ}

variable (T hasher onCommit) in
/-- The mirror's command runs on an empty buffer when the request has come in, then on each packet. -/
def received (request : Write) (data : List Bytes) (r : StoreState κ) : StoreState κ :=
  (([] :: data ++ [[]]).foldl (WriteCommand.feed (FileStore.env T hasher onCommit)) (WriteCommand.create request, r)).2

/-- What is relied on of a mirror: the key's directory holds versions, and its own id ends nothing. -/
structure Receives (T : TurboLib) (n : Bytes) (r : StoreState κ) : Prop where
  keyDir : KeyDir T r.fs n
  rooted : r.fs.Rooted
  linked : ∀ nm k, r.fs.lookup (dirpath n) nm = some k → k < r.fs.inodes.length
  memberId : ∀ b ∈ r.host.memberId, isPlain b

variable (T hasher pack takes onCommit) in
def Mirrored (s : ChainedWrite) : Prop :=
  ∀ stream ∈ s.outstream, ∀ data rest, stream.conn.writer.taken = stream.head takes pack ++ data ++ [] :: rest →
    [] ∉ data → s.finished = true ∧ data.flatten = s.file ∧ stream.request.name = s.params.name ∧
      ∀ (r : StoreState κ) w r₁, Receives T s.params.name r →
        (FileStore.env T hasher onCommit).store stream.request r = (.accepted w, r₁) →
        Committed T (received T hasher onCommit stream.request data r).fs s.params.name s.params.version s.file

lemma vstr_of_write (hv : IsVersion T v) {host : Host} {fs fs' : FileSystem} {copies : ℕ}
    (h : FileStore.write T host fs n v copies = (.accepted w, fs')) : w.vstr T = v ∧ v ∉ versions fs n true := by
  rw [write_version hv] at h
  split_ifs at h with hold
  · simp at h
  · rw [Bool.or_eq_true, not_or] at hold
    refine ⟨?_, by simpa [exists_] using hold.1⟩
    rw [openVersion] at h
    split at h
    · simp at h
    · rw [← StoreAnswer.accepted.inj (Prod.mk.inj h).1]
      exact hv.toString_ofName

lemma received_committed (hT : T.Base64) (hP : T.Printable)
    (hfs : ∀ params reader s, (onCommit params reader s).2.fs = s.fs)
    (hincomplete : ∀ params reader s, params.isComplete = false → (onCommit params reader s).1.isComplete = false)
    (hr : Receives T request.name r) (hname : request.name ≠ []) (hv : IsVersion T request.version)
    (haccept : (FileStore.env T hasher onCommit).store request r = (.accepted w, r₁))
    (hdata : ∀ d ∈ data, d ≠ [] ∧ d.length ≤ 0x10000) :
    Committed T (received T hasher onCommit request data r).fs request.name request.version data.flatten := by
  have hwrite : FileStore.write T r.host r.fs request.name request.version (toUnsignedShort request.copies) =
      (.accepted w, r₁.fs) ∧ r₁ = { r with fs := r₁.fs } := by
    simp only [FileStore.env] at haccept
    obtain ⟨hanswer, rfl⟩ := Prod.mk.inj haccept
    exact ⟨Prod.ext hanswer rfl, rfl⟩
  obtain ⟨hvstr, hnew⟩ := vstr_of_write hv hwrite.1
  obtain ⟨k, hstream⟩ := WriteCommand.streaming_of_write hT hP hr.keyDir hr.rooted hr.linked hr.memberId hwrite.1
    request
  rw [← hwrite.2, hvstr] at hstream
  have hfirst : WriteCommand.feed (FileStore.env T hasher onCommit) (WriteCommand.create request, r) [] =
      ({ (WriteCommand.create request : WriteCommand Writestream) with started := true, writer := some w }, r₁) := by
    rw [WriteCommand.feed, WriteCommand.run_first [] r hname, haccept]
    rfl
  obtain ⟨hstarted, _, hstream', -⟩ := (WriteCommand.streaming_keeps T hasher request.name request.version
    (leftover r.fs request.name request.version) k r.fs hfs hincomplete).feeds none
    (c := { (WriteCommand.create request : WriteCommand Writestream) with started := true, writer := some w }) rfl
    (Nat.zero_le _) (hstream.touch rfl rfl rfl rfl) hdata
  obtain ⟨gone, hcommits⟩ := hstream'.feed_end hasher hT hfs hstarted
  have hreceived : received T hasher onCommit request data r = (WriteCommand.feed (FileStore.env T hasher onCommit)
      (data.foldl (WriteCommand.feed (FileStore.env T hasher onCommit))
        ({ (WriteCommand.create request : WriteCommand Writestream) with started := true, writer := some w }, r₁))
      []).2 := by
    rw [received, List.cons_append, List.foldl_cons, hfirst, List.foldl_append]
    rfl
  rw [hreceived]
  refine (UserCommandContext.committed_iff hT hP.self hv hr.keyDir hstream'.keyDir hstream'.lookup hstream'.content
    hcommits).2 (.inl ?_)
  have hnone : r.fs.lookup (dirpath request.name) (request.version ++ [126]) = none := by
    by_contra hsome
    obtain ⟨l, hl⟩ := Option.ne_none_iff_exists'.1 hsome
    exact hnew ((hr.keyDir.mem_versions_inprogress hT).2 (.inr ⟨hv, l, hl⟩))
  rw [leftover, tempname_eq hv, FileSystem.find_concat, hnone]
  exact Nat.zero_le _

lemma Stage.ended_of_empty {head : List Bytes} {file : Bytes} {offset : ℕ} {finished : Bool} {t : Transfer}
    (h : Stage capacity head file offset finished t) {rest : List Bytes}
    (htaken : t.conn.writer.taken = head ++ data ++ [] :: rest) (hdata : [] ∉ data) :
    finished = true ∧ Cut capacity data file := by
  have hmid {e : ℕ} (hpassed : Passed capacity head e file [] t.conn.writer.taken) : False := by
    obtain ⟨sent, hcut, hsent⟩ := hpassed
    rw [htaken, List.append_nil, List.append_assoc, List.append_cancel_left_eq] at hsent
    exact hcut.nonempty (hsent ▸ by simp)
  cases h with
  | sending _ _ _ _ hpassed => exact (hmid hpassed).elim
  | waiting _ _ _ _ hpassed => exact (hmid hpassed).elim
  | silent _ _ _ _ hpassed => exact (hmid hpassed).elim
  | ended hfinished _ hpassed =>
    obtain ⟨sent, hcut, hsent⟩ := hpassed
    rw [htaken, List.append_assoc, List.append_assoc, List.append_cancel_left_eq] at hsent
    obtain ⟨rfl, -⟩ := (List.append_cons_inj_of_notMem hcut.nonempty List.not_mem_nil).1 hsent.symm
    rw [List.take_length] at hcut
    exact ⟨hfinished, hcut⟩

theorem mirrored_along (hT : T.Base64) (hP : T.Printable)
    (hfs : ∀ params reader s, (onCommit params reader s).2.fs = s.fs)
    (hincomplete : ∀ params reader s, params.isComplete = false → (onCommit params reader s).1.isComplete = false)
    (hc : 0 < capacity) (hcapacity : capacity ≤ 0x10000) (hname : params.name ≠ []) (hv : IsVersion T params.version)
    (h : Along (step takes capacity pack blocking) (Meets takes capacity pack blocking) { params := params } actions) :
    ∀ before, before <+: actions → Mirrored takes pack T hasher onCommit
      (before.foldl (step takes capacity pack blocking) { params := params }) := by
  rintro before ⟨rest, rfl⟩
  have hstart : Chaining takes capacity pack params.name params.version { params := params } :=
    ⟨by simp, rfl, rfl, by simp⟩
  have hchaining := ((along_append _).1 h).1.invariant
    (I := Chaining takes capacity pack params.name params.version) (fun s a hs hmeets => hs.step hc hmeets) hstart
  intro stream hstream data rest htaken hdata
  obtain ⟨stage, -, hn, hversion⟩ := hchaining.stream stream hstream
  obtain ⟨hfinished, hcut⟩ := stage.ended_of_empty htaken hdata
  refine ⟨hfinished, hcut.flatten, hn.trans hchaining.name.symm, fun r w r₁ hr haccept => ?_⟩
  rw [hchaining.name] at hr ⊢
  rw [hchaining.version, ← hn, ← hversion, ← hcut.flatten]
  rw [← hn] at hr hname
  rw [← hversion] at hv
  refine received_committed hT hP hfs hincomplete hr hname hv haccept fun d hd => ⟨?_, ?_⟩
  · rintro rfl
    exact hdata hd
  · exact (hcut.small d hd).trans hcapacity

end Mirror

section Examples

def one : Bytes := VectorClock.toString .wrapping [⟨ascii "a", 1, 0⟩]

lemma one_isVersion : IsVersion .wrapping one := by
  refine VectorClock.isVersion_toString TurboLib.wrapping_base64 (by decide) ?_ (by decide)
  intro c hc
  obtain rfl := List.mem_singleton.1 hc
  exact ⟨by decide +kernel, by decide⟩

def written : ChainedWrite := { params := { name := ascii "k", version := one } }

def slow (i : ℕ) : Bool := decide (i ≠ 2 ∧ i ≠ 3)

def resumedTwice : List ChainAction :=
  [.append [1, 2, 3, 4, 5, 6], .flush false ⟨true, 1, ascii "me", true⟩, .append [7], .resume true,
    .flush true ⟨false, 0, [], false⟩, .resume true]

theorem mirrored_along_example : Mirrored slow (fun _ => [7]) .wrapping id quiet
    (resumedTwice.foldl (step slow 4 (fun _ => [7]) false) written) := by
  refine @mirrored_along slow 4 (fun _ => [7]) false Unit .wrapping id _ resumedTwice quiet
    TurboLib.wrapping_base64 TurboLib.wrapping_printable (fun _ _ _ => rfl) (fun _ _ _ h => h) (by decide) (by decide)
    (by decide) one_isVersion ⟨trivial, ?_, trivial, ?_, ?_, ?_, trivial⟩ resumedTwice (List.prefix_refl _)
  · intro _ stream hstream
    obtain rfl := Option.some.inj hstream
    refine ⟨rfl, ?_⟩
    unfold Counted
    decide
  · intro _ stream hstream write hwrite
    obtain rfl := Option.some.inj hstream
    obtain rfl := Option.some.inj hwrite
    refine ⟨?_, fun _ => ⟨0, by decide, by decide⟩⟩
    unfold Counted
    decide
  · intro _ hbackground
    cases hbackground
  · intro _ stream hstream write hwrite
    obtain rfl := Option.some.inj hstream
    obtain rfl := Option.some.inj hwrite
    refine ⟨?_, fun hfinished => by cases hfinished⟩
    unfold Counted
    decide

def late (first : Bytes) : List ChainAction :=
  [.append first, .flush false ⟨false, 0, [], false⟩, .append [1], .flush true ⟨true, 1, ascii "me", true⟩]

lemma append_of_short {data : Bytes} (hfinished : s.finished = false) (hshort : s.file.length + data.length < 2 ^ 63) :
    s.append data = { s with file := s.file ++ data } :=
  if_neg fun h => h.elim (by simp [hfinished]) (Nat.not_le.2 hshort)

lemma late_sent {first : Bytes} (hpos : 0 < first.length) (hshort : first.length + 1 < 2 ^ 63) :
    ∃ stream, ((late first).foldl (step (fun _ => true) 0x10000 (fun _ => [7]) true) written).outstream = some stream ∧
      stream.conn.writer.taken = stream.head (fun _ => true) (fun _ => [7]) ++ [[1]] ++ [[]] ∧
      ((late first).foldl (step (fun _ => true) 0x10000 (fun _ => [7]) true) written).file = first ++ [1] := by
  have hfirst : written.append first = { written with file := first } :=
    append_of_short rfl ((Nat.zero_add _).trans_lt (Nat.lt_of_succ_lt hshort))
  have hflush : flush (fun _ => true) 0x10000 (fun _ => [7]) true false ⟨false, 0, [], false⟩
      { written with file := first } =
      { written with
        file := first
        params := { written.params with source := [], mirror := 0, offset := first.length } } := rfl
  have hlast : append [1]
      { written with
        file := first
        params := { written.params with source := [], mirror := 0, offset := first.length } } =
      { written with
        file := first ++ [1]
        params := { written.params with source := [], mirror := 0, offset := first.length } } :=
    append_of_short rfl hshort
  simp only [late, List.foldl_cons, List.foldl_nil, step, hfirst, hflush, hlast]
  have hreader : FileReader.setPosition first.length ⟨first ++ [1], 0⟩ = some ⟨first ++ [1], first.length⟩ :=
    if_pos (Nat.lt_of_succ_lt hshort)
  simp [written, flush, ChainWrite.run, connect, openTo, openStream, store, streamLoop, FileReader.stream,
    ConnectionWriteStream.write, SocketWriter.send, MirrorChoice.leaves, Outstream.head, hpos, hreader]

theorem not_mirrored_when_opened_late : ¬ Mirrored (fun _ => true) (fun _ => [7]) .wrapping id quiet
    ((late (List.replicate 0x10000 0)).foldl (step (fun _ => true) 0x10000 (fun _ => [7]) true) written) := by
  have hlength : (List.replicate 0x10000 (0 : UInt8)).length = 0x10000 := List.length_replicate
  generalize List.replicate 0x10000 (0 : UInt8) = first at hlength
  intro h
  obtain ⟨stream, hstream, htaken, hfile⟩ := @late_sent first (by omega) (by omega)
  obtain ⟨-, hdata, -⟩ := h stream hstream [[1]] [] htaken (by simp)
  have hlong := congrArg List.length hdata
  rw [hfile, List.length_append, hlength] at hlong
  simp at hlong

end Examples

end ChainedWrite

end Turbopump
