import Turbopump.Api.AckWriteCommand
import Turbopump.Callbacks.ChainWrite

/-! The callbacks of a write in partition mode: it is passed along its locations, and what ends the chain, or nearly
does, is acknowledged to its source. -/

namespace Turbopump

open FileStore WriteSupervisor

namespace NotifyWriteComplete

def run (membership : IKnowPeers) (params : WriteInstructions) (size : ℕ) : List (PeerPtr × AckWrite) :=
  if params.copies ≤ params.mirror ∧ params.source ≠ [] then match membership.lookup params.source with
    | none => []
    | some source => [(source, ⟨params.name, params.version, size⟩)]
  else []

end NotifyWriteComplete

structure Links where
  conns : List (PeerPtr × Outstream) := []
  acks : List (PeerPtr × AckWrite) := []

structure ChainNode where
  locations : Bytes → ℕ → List Bytes
  membership : IKnowPeers
  reaches : PeerPtr → Bool

def Links.Grows (links links' : Links) : Prop :=
  ∀ (i : ℕ) peer stream, links.conns[i]? = some (peer, stream) → ∃ stream', links'.conns[i]? = some (peer, stream') ∧
    stream'.request = stream.request ∧ stream.conn.writer.taken <+: stream'.conn.writer.taken

lemma Links.Grows.refl (links : Links) : links.Grows links := fun _ _ stream h => ⟨stream, h, rfl, List.prefix_refl _⟩

lemma Links.Grows.trans {links links' links'' : Links} (h : links.Grows links') (h' : links'.Grows links'') :
    links.Grows links'' := by
  intro i peer stream hstream
  obtain ⟨stream', hstream', hrequest, htaken⟩ := h i peer stream hstream
  obtain ⟨stream'', hstream'', hrequest', htaken'⟩ := h' i peer stream' hstream'
  exact ⟨stream'', hstream'', hrequest'.trans hrequest, htaken.trans htaken'⟩

section Callbacks

variable (takes : ℕ → Bool) (capacity : ℕ) (pack : Write → Bytes) (node : ChainNode)

def Outstream.store (params : WriteInstructions) (contents : Bytes) (stream : Outstream) : Outstream :=
  { stream with toTransfer := (WriteSupervisor.store takes capacity params ⟨contents, 0⟩ false stream.toTransfer).2 }

/-- `ChainWrite<MirrorToPeer>::run`; a write's `outstream` is one of the connections that the node has opened. -/
def writeChainFunct (blocking : Bool) (params : WriteInstructions) (contents : Bytes) (links : Links) :
    WriteInstructions × Links := match params.outstream with
  | some i => match links.conns[i]? with
    | none => (params, links)
    | some (peer, stream) =>
      (params, { links with conns := links.conns.set i (peer, stream.store takes capacity params contents) })
  | none => match MirrorToPeer.chooseMirror node.locations node.membership params with
    | (none, params) => (params, links)
    | (some peer, params) =>
      if node.reaches peer then
        let stream := ChainWrite.openTo takes pack blocking params.toWrite
        let params := { params with outstream := some links.conns.length }
        (params, { links with conns := links.conns ++ [(peer, stream.store takes capacity params contents)] })
      else (params, links)

/-- Of the callbacks the index, the chain and, at a mirror, the acknowledgement. -/
def whenWriteFinishesOn (mirror : Bool) (params : WriteInstructions) (reader : Readstream)
    (s : StoreState (Callbacks Links)) : WriteInstructions × StoreState (Callbacks Links) :=
  let contents := (s.fs.file reader.inode).content
  let calls := s.callbacks.calls ++ [digestAddFunct params reader]
  -- only a local write waits for its connection
  let (params, links) := writeChainFunct takes capacity pack node (!mirror) params contents s.callbacks.others
  let acks := if mirror then NotifyWriteComplete.run node.membership params contents.length else []
  (params, { s with callbacks := ⟨calls, { links with acks := links.acks ++ acks }⟩ })

abbrev whenLocalWriteFinishes := whenWriteFinishesOn takes capacity pack node false

abbrev whenMirrorWriteFinishes := whenWriteFinishesOn takes capacity pack node true

end Callbacks

namespace MirrorToPeer

variable {locations : Bytes → ℕ → List Bytes} {membership : IKnowPeers} {L : List Bytes} {origin uid : Bytes}
  {params : WriteInstructions} {m : ℕ}

lemma chooseMirror_last (hcopies : params.copies = L.length) (hmirror : params.mirror = L.length)
    (locations : Bytes → ℕ → List Bytes) (membership : IKnowPeers) :
    chooseMirror locations membership params = (none, params) := by
  rw [chooseMirror, if_pos (by rw [hcopies, hmirror])]

lemma chooseMirror_next (hL : (origin :: L).Nodup) (hshort : L.length ≤ 32767) (hm : m < L.length)
    (huid : (origin :: L)[m]? = some uid) (hknows : KnowsAll L uid membership) (hcopies : params.copies = L.length)
    (hlocations : locations params.name L.length = L) (hmirror : params.mirror = m)
    (hsource : m ≠ 0 → params.source = origin) :
    ∃ peer, peer.peer.uid = L[m] ∧ chooseMirror locations membership params =
      (some peer, { params with source := origin, mirror := (m + 1 : ℕ) }) := by
  obtain ⟨self, hself, rfl, hothers⟩ := hknows
  have hnext : (origin :: L)[m + 1]? = some L[m] := by simp [hm]
  have hne : L[m] ≠ self.peer.uid := by
    intro heq
    have hbound : m + 1 < (origin :: L).length := by simpa using hm
    have hsame := (List.getElem?_inj hbound hL).1 (hnext.trans (heq ▸ huid.symm))
    omega
  have horigin : L[m] ≠ origin := fun heq => (List.nodup_cons.1 hL).1 (heq ▸ List.getElem_mem hm)
  have hwith : withSource self params = { params with source := origin } := by
    by_cases hzero : m = 0
    · subst hzero
      rw [withSource, if_pos (by simpa using hmirror), ← Option.some.inj huid]
    · rw [withSource, if_neg (by omega), ← hsource hzero]
  have hfind : findNext origin self.peer.uid m (L.drop m) = some (m, L[m]) := by
    rw [List.drop_eq_getElem_cons hm, findNext, if_neg (by simp [horigin, hne])]
  obtain ⟨peer, hlookup, hpeer, hobject⟩ := hothers L[m] (List.getElem_mem hm) hne
  have hmirror' : toUnsigned params.mirror = m := by rw [hmirror, toUnsigned_natCast (by omega)]
  have hcopies' : toUnsigned params.copies = L.length := by rw [hcopies, toUnsigned_natCast (by omega)]
  refine ⟨peer, hpeer, ?_⟩
  have hstop : ¬(peer.object = self.object ∨ peer.peer.uid = origin) := by
    rw [not_or]
    exact ⟨hobject, hpeer ▸ horigin⟩
  have hgo : ¬ L.length ≤ m := by omega
  simp only [chooseMirror, hmirror', hcopies', if_neg hgo, hself, hwith, hlocations, hfind, hlookup, if_neg hstop]
  rw [toShort_of_le (by omega) (by omega)]
  rfl

end MirrorToPeer

namespace WriteSupervisor

open MirrorSession (Cut)

variable {capacity : ℕ}

lemma streamLoop_all (hc : 0 < capacity) (file : Bytes) (fuel position : ℕ) (conn : ConnectionWriteStream)
    (hfuel : file.length < position + fuel) (hfull : conn.full = false) :
    let sent := (streamLoop (fun _ => true) capacity fuel ⟨file, position⟩ conn).2
    ∃ data, Cut capacity data (file.drop position) ∧ sent.writer.taken = conn.writer.taken ++ data ∧
      sent.full = false ∧ sent.background = conn.background := by
  induction fuel generalizing position conn with
  | zero =>
    refine ⟨[], ⟨by simp, by simp, ?_⟩, by simp [streamLoop], hfull, rfl⟩
    rw [List.drop_eq_nil_of_le (by omega), List.flatten_nil]
  | succ fuel ih =>
    by_cases hbuff : ((file.drop position).take capacity).length = 0
    · refine ⟨[], ⟨by simp, by simp, ?_⟩, by simp [streamLoop, FileReader.stream, hbuff], ?_, ?_⟩
      · rw [List.length_take] at hbuff
        have hnil : file.drop position = [] := List.eq_nil_of_length_eq_zero (by omega)
        rw [hnil, List.flatten_nil]
      · simpa [streamLoop, FileReader.stream, hbuff] using hfull
      · simp [streamLoop, FileReader.stream, hbuff]
    · set buff := (file.drop position).take capacity with hset
      have hwrite : conn.write (fun _ => true) buff = (buff.length, { conn with
          writer := ⟨conn.writer.offered + 1, conn.writer.taken ++ [buff]⟩ }) := by
        cases hblocking : conn.blocking <;> simp [ConnectionWriteStream.write, SocketWriter.send, hblocking, hfull]
      have hloop : (streamLoop (fun _ => true) capacity (fuel + 1) ⟨file, position⟩ conn).2 =
          (streamLoop (fun _ => true) capacity fuel ⟨file, position + buff.length⟩ { conn with
            writer := ⟨conn.writer.offered + 1, conn.writer.taken ++ [buff]⟩ }).2 := by
        simp only [streamLoop, FileReader.stream, ← hset, if_neg hbuff, hwrite, if_pos (Nat.pos_of_ne_zero hbuff)]
      obtain ⟨data, hcut, htaken, hfull', hbackground⟩ := ih (position + buff.length)
        { conn with writer := ⟨conn.writer.offered + 1, conn.writer.taken ++ [buff]⟩ } (by omega) hfull
      simp only [hloop]
      refine ⟨buff :: data, ⟨?_, ?_, ?_⟩, ?_, hfull', hbackground⟩
      · rw [List.mem_cons, not_or]
        exact ⟨fun hnil => hbuff (by rw [← hnil]; rfl), hcut.nonempty⟩
      · exact List.forall_mem_cons.2 ⟨List.length_take_le _ _, hcut.small⟩
      · rw [List.flatten_cons, hcut.flatten, ← List.drop_drop]
        exact List.prefix_iff_eq_append.1 (List.take_prefix capacity _)
      · rw [htaken, List.append_assoc]
        rfl

end WriteSupervisor

section Grows

variable {takes : ℕ → Bool} {capacity : ℕ} {pack : Write → Bytes} {node : ChainNode} {links : Links}
  {params : WriteInstructions}

lemma Outstream.taken_store (stream : Outstream) (contents : Bytes) :
    stream.conn.writer.taken <+: (stream.store takes capacity params contents).conn.writer.taken := by
  simp only [Outstream.store, WriteSupervisor.store]
  split
  · exact List.prefix_refl _
  · split
    · exact List.prefix_refl _
    · next reader _ =>
      obtain ⟨more, hmore, -⟩ := @MirrorSession.streamLoop_small takes capacity (reader.contents.length + 1) reader
        stream.conn
      split
      · exact ⟨more, hmore.symm⟩
      · split
        · rw [MirrorSession.write_empty]
          refine List.IsPrefix.trans ⟨more, hmore.symm⟩ ?_
          exact List.prefix_append _ _
        · exact ⟨more, hmore.symm⟩

lemma writeChainFunct_grows (blocking : Bool) (contents : Bytes) :
    links.Grows (writeChainFunct takes capacity pack node blocking params contents links).2 := by
  rw [writeChainFunct]
  split
  · next i _ =>
    split
    · exact .refl links
    · next peer stream hconns =>
      intro j peer' stream' hstream'
      by_cases hj : i = j
      · subst hj
        obtain ⟨rfl, rfl⟩ := Prod.mk.inj (Option.some.inj (hconns.symm.trans hstream'))
        refine ⟨stream.store takes capacity params contents, ?_, rfl, stream.taken_store contents⟩
        rw [List.getElem?_set_self (List.getElem?_eq_some_iff.1 hconns).1]
      · refine ⟨stream', ?_, rfl, List.prefix_refl _⟩
        rw [List.getElem?_set_ne hj, hstream']
  · split
    · exact .refl links
    · split_ifs
      · intro j peer' stream' hstream'
        refine ⟨stream', ?_, rfl, List.prefix_refl _⟩
        rw [List.getElem?_append_left (List.getElem?_eq_some_iff.1 hstream').1, hstream']
      · exact .refl links

lemma whenWriteFinishesOn_grows (mirror : Bool) (reader : Readstream) (s : StoreState (Callbacks Links)) :
    s.callbacks.others.Grows
      (whenWriteFinishesOn takes capacity pack node mirror params reader s).2.callbacks.others :=
  fun i peer stream hstream => writeChainFunct_grows _ _ i peer stream hstream

end Grows

namespace ChainWrite

open MirrorSession (Cut)

variable {capacity : ℕ} {pack : Write → Bytes} {stream : Outstream} {head : List Bytes} {file : Bytes}
  {params : WriteInstructions}

structure Idle (stream : Outstream) : Prop where
  full : stream.conn.full = false
  background : stream.conn.background = false

lemma openTo_idle (blocking : Bool) (request : Write) :
    Idle (openTo (fun _ => true) pack blocking request) ∧
      (openTo (fun _ => true) pack blocking request).conn.writer.taken = [reqHeader pack request] := by
  cases blocking
  · exact ⟨⟨by simp [openTo, openStream, ConnectionWriteStream.write, SocketWriter.send], rfl⟩, rfl⟩
  · exact ⟨⟨rfl, rfl⟩, rfl⟩

lemma store_passed (hc : 0 < capacity) (hidle : Idle stream) (hoffset : params.offset ≤ file.length)
    (hfile : file.length < 2 ^ 63)
    (hpassed : Passed capacity head params.offset file [] stream.conn.writer.taken) :
    let stored := stream.store (fun _ => true) capacity params file
    Idle stored ∧ stored.request = stream.request ∧
      Passed capacity head file.length file (if params.isComplete then [[]] else []) stored.conn.writer.taken := by
  have hreader : (if 0 < params.offset then FileReader.setPosition params.offset ⟨file, 0⟩ else some ⟨file, 0⟩) =
      some ⟨file, params.offset⟩ := by
    split
    · rw [FileReader.setPosition, if_pos (by omega)]
    · rw [show params.offset = 0 by omega]
  obtain ⟨data, hcut, htaken, hfull, hbackground⟩ :=
    streamLoop_all hc file (file.length + 1) params.offset stream.conn (by omega) hidle.full
  have hrest : Cut capacity data ((file.drop params.offset).take (file.length - params.offset)) := by
    rwa [← List.length_drop, List.take_length]
  have hmore := hpassed.more hoffset hrest
  rw [← htaken] at hmore
  cases hcomplete : params.isComplete with
  | false =>
    have hstored : stream.store (fun _ => true) capacity params file = { stream with
        conn := (streamLoop (fun _ => true) capacity (file.length + 1) ⟨file, params.offset⟩ stream.conn).2 } := by
      simp [Outstream.store, WriteSupervisor.store, hidle.background, hreader, hfull, hcomplete]
    simp only [hstored]
    exact ⟨⟨hfull, hbackground.trans hidle.background⟩, trivial, by simpa using hmore []⟩
  | true =>
    have hstored : stream.store (fun _ => true) capacity params file = { stream with
        conn := ((streamLoop (fun _ => true) capacity (file.length + 1) ⟨file, params.offset⟩ stream.conn).2.write
          (fun _ => true) []).2 } := by
      simp [Outstream.store, WriteSupervisor.store, hidle.background, hreader, hfull, hcomplete]
    simp only [hstored, MirrorSession.write_empty, if_true]
    refine ⟨⟨?_, hbackground.trans hidle.background⟩, trivial, hmore [[]]⟩
    simp [ConnectionWriteStream.noted, hfull]

/-- A node in the chain of a write: behind `m` of the locations, the last of which it is, or the origin. -/
structure Place (node : ChainNode) (L : List Bytes) (origin name : Bytes) (m : ℕ) : Prop where
  distinct : (origin :: L).Nodup
  short : L.length ≤ 32767
  locations : node.locations name L.length = L
  knows : ∃ uid, (origin :: L)[m]? = some uid ∧ MirrorToPeer.KnowsAll L uid node.membership
  reaches : ∀ peer, node.reaches peer = true
  named : ∀ uid peer, node.membership.lookup uid = some peer → peer.peer.uid = uid

def requestTo (L : List Bytes) (origin name v : Bytes) (m : ℕ) : Write :=
  { name := name, version := v, mirror := m, copies := L.length, source := origin }

variable (capacity pack) in
def Linked (L : List Bytes) (origin name v : Bytes) (m e : ℕ) (file : Bytes) (tail : List Bytes)
    (outstream : Option ℕ) (conns : List (PeerPtr × Outstream)) : Prop := match L[m]? with
  | none => outstream = none ∧ conns = []
  | some uid => outstream = some 0 ∧ ∃ peer stream, conns = [(peer, stream)] ∧ peer.peer.uid = uid ∧ Idle stream ∧
    stream.request = requestTo L origin name v (m + 1) ∧
    Passed capacity [reqHeader pack stream.request] e file tail stream.conn.writer.taken

structure Opening (L : List Bytes) (origin name : Bytes) (m : ℕ) (params : WriteInstructions) : Prop where
  name : params.name = name
  copies : params.copies = L.length
  mirror : params.mirror = m
  source : m ≠ 0 → params.source = origin
  offset : params.offset = 0
  outstream : params.outstream = none

structure Passing (L : List Bytes) (origin name v : Bytes) (m : ℕ) (params : WriteInstructions) : Prop where
  name : params.name = name
  version : params.version = v
  copies : params.copies = L.length
  mirror : params.mirror = (min (m + 1) L.length : ℕ)
  source : m ≠ 0 → params.source = origin

section Place

variable {node : ChainNode} {L : List Bytes} {origin name v : Bytes} {m e : ℕ} {links : Links}

lemma Place.bound (h : Place node L origin name m) : m ≤ L.length := by
  obtain ⟨uid, huid, -⟩ := h.knows
  obtain ⟨hm, -⟩ := List.getElem?_eq_some_iff.1 huid
  simpa [Nat.lt_succ_iff] using hm

lemma Place.open (hc : 0 < capacity) (h : Place node L origin name m) (blocking : Bool)
    (hopening : Opening L origin name m params) (hversion : params.version = v) (hconns : links.conns = [])
    (hfile : file.length < 2 ^ 63) :
    let sent := writeChainFunct (fun _ => true) capacity pack node blocking params file links
    Passing L origin name v m sent.1 ∧ sent.1.isComplete = params.isComplete ∧ sent.2.acks = links.acks ∧
      Linked capacity pack L origin name v m file.length file (if params.isComplete then [[]] else [])
        sent.1.outstream sent.2.conns := by
  have hbound := h.bound
  by_cases hm : m < L.length
  · obtain ⟨uid, huid, hknows⟩ := h.knows
    obtain ⟨peer, hpeer, hchoose⟩ := MirrorToPeer.chooseMirror_next h.distinct h.short hm huid hknows
      hopening.copies (hopening.name ▸ h.locations) hopening.mirror hopening.source
    set sent : WriteInstructions := { params with
      source := origin
      mirror := (m + 1 : ℕ)
      outstream := some 0 }
    have hrequest : sent.toWrite = requestTo L origin name v (m + 1) := by
      simp only [sent, requestTo, hopening.name, hopening.copies, hopening.offset, hversion]
    obtain ⟨hidle, htaken⟩ := @openTo_idle pack blocking sent.toWrite
    have hpassed : Passed capacity [reqHeader pack sent.toWrite] sent.offset file []
        (openTo (fun _ => true) pack blocking sent.toWrite).conn.writer.taken :=
      ⟨[], ⟨by simp, by simp, by simp [sent, hopening.offset]⟩, by simp [htaken]⟩
    obtain ⟨hidle', hrequest', hpassed'⟩ := store_passed hc hidle (by simp [sent, hopening.offset]) hfile hpassed
    have hfunct : writeChainFunct (fun _ => true) capacity pack node blocking params file links =
        (sent, { links with conns := [(peer, (openTo (fun _ => true) pack blocking sent.toWrite).store
          (fun _ => true) capacity sent file)] }) := by
      simp only [writeChainFunct, hopening.outstream, hchoose, h.reaches, if_true, hconns]
      rfl
    simp only [hfunct]
    refine ⟨⟨hopening.name, hversion, hopening.copies, ?_, fun _ => rfl⟩, rfl, trivial, ?_⟩
    · rw [Nat.min_eq_left hm]
    · rw [Linked, List.getElem?_eq_getElem hm]
      refine ⟨rfl, peer, _, rfl, hpeer, hidle', hrequest'.trans hrequest, ?_⟩
      rw [hrequest']
      exact hpassed'
  · obtain rfl : m = L.length := by omega
    have hfunct : writeChainFunct (fun _ => true) capacity pack node blocking params file links = (params, links) := by
      simp only [writeChainFunct, hopening.outstream,
        MirrorToPeer.chooseMirror_last hopening.copies hopening.mirror]
    simp only [hfunct]
    refine ⟨⟨hopening.name, hversion, hopening.copies, ?_, hopening.source⟩, trivial, trivial, ?_⟩
    · rw [Nat.min_eq_right (Nat.le_succ _), hopening.mirror]
    · rw [Linked, List.getElem?_eq_none le_rfl]
      exact ⟨hopening.outstream, hconns⟩

lemma Place.go_on (hc : 0 < capacity) (h : Place node L origin name m) (blocking : Bool)
    (hpassing : Passing L origin name v m params) (he : params.offset ≤ file.length)
    (hlinked : Linked capacity pack L origin name v m params.offset file [] params.outstream links.conns)
    (hfile : file.length < 2 ^ 63) :
    let sent := writeChainFunct (fun _ => true) capacity pack node blocking params file links
    Passing L origin name v m sent.1 ∧ sent.1.isComplete = params.isComplete ∧ sent.2.acks = links.acks ∧
      Linked capacity pack L origin name v m file.length file (if params.isComplete then [[]] else [])
        sent.1.outstream sent.2.conns := by
  have hbound := h.bound
  by_cases hm : m < L.length
  · rw [Linked, List.getElem?_eq_getElem hm] at hlinked
    obtain ⟨houtstream, peer, stream, hconns, hpeer, hidle, hrequest, hpassed⟩ := hlinked
    obtain ⟨hidle', hrequest', hpassed'⟩ := store_passed hc hidle he hfile hpassed
    have hfunct : writeChainFunct (fun _ => true) capacity pack node blocking params file links =
        (params, { links with conns := [(peer, stream.store (fun _ => true) capacity params file)] }) := by
      simp only [writeChainFunct, houtstream, hconns]
      rfl
    simp only [hfunct]
    refine ⟨hpassing, trivial, trivial, ?_⟩
    rw [Linked, List.getElem?_eq_getElem hm]
    refine ⟨houtstream, peer, _, rfl, hpeer, hidle', hrequest'.trans hrequest, ?_⟩
    rw [hrequest']
    exact hpassed'
  · obtain rfl : m = L.length := by omega
    rw [Linked, List.getElem?_eq_none le_rfl] at hlinked
    have hmirror : params.mirror = L.length := by rw [hpassing.mirror, Nat.min_eq_right (Nat.le_succ _)]
    have hfunct : writeChainFunct (fun _ => true) capacity pack node blocking params file links = (params, links) := by
      simp only [writeChainFunct, hlinked.1, MirrorToPeer.chooseMirror_last hpassing.copies hmirror]
    simp only [hfunct]
    refine ⟨hpassing, trivial, trivial, ?_⟩
    rw [Linked, List.getElem?_eq_none le_rfl]
    exact hlinked

lemma Linked.append {outstream : Option ℕ} {conns : List (PeerPtr × Outstream)} (data : Bytes) (he : e ≤ file.length)
    (h : Linked capacity pack L origin name v m e file [] outstream conns) :
    Linked capacity pack L origin name v m e (file ++ data) [] outstream conns := by
  rw [Linked] at h ⊢
  cases hnext : L[m]? with
  | none => simpa only [hnext] using h
  | some uid =>
    simp only [hnext] at h ⊢
    obtain ⟨houtstream, peer, stream, hconns, hpeer, hidle, hrequest, hpassed⟩ := h
    exact ⟨houtstream, peer, stream, hconns, hpeer, hidle, hrequest, hpassed.append he data⟩

/-- Acknowledgements come from the last two locations, and are of no more than has been flushed. -/
def Acked (L : List Bytes) (origin name v : Bytes) (m e : ℕ) (mirror : Bool) (acks : List (PeerPtr × AckWrite)) :
    Prop := ∀ ack ∈ acks, mirror = true ∧ L.length ≤ m + 1 ∧ (m ≠ 0 → ack.1.peer.uid = origin) ∧ ack.2.name = name ∧
  ack.2.version = v ∧ ack.2.size ≤ e

lemma Passing.acked (h : Passing L origin name v m params) (hplace : Place node L origin name m) (size : ℕ) :
    Acked L origin name v m size true (NotifyWriteComplete.run node.membership params size) := by
  intro ack hack
  rw [NotifyWriteComplete.run] at hack
  split_ifs at hack with hlast
  · have hbound : L.length ≤ m + 1 := by
      have hmirror := h.mirror
      have hcopies := h.copies
      omega
    cases hlookup : node.membership.lookup params.source with
    | none => simp [hlookup] at hack
    | some source =>
      simp only [hlookup] at hack
      obtain rfl := List.mem_singleton.1 hack
      exact ⟨rfl, hbound, fun hm => (hplace.named _ _ hlookup).trans (h.source hm), h.name, h.version, le_rfl⟩
  · simp at hack

variable (capacity pack) in
def Behind (L : List Bytes) (origin name v : Bytes) (m : ℕ) (mirror : Bool) (flushed : Option ℕ) (body : Bytes)
    (params : WriteInstructions) (links : Links) : Prop := match flushed with
  | none => Opening L origin name m params ∧ (params.version = [] ∨ params.version = v) ∧ links = {}
  | some e => Passing L origin name v m params ∧ params.offset = e ∧ e ≤ body.length ∧
    Linked capacity pack L origin name v m e body [] params.outstream links.conns ∧
    Acked L origin name v m e mirror links.acks

structure Finished (capacity : ℕ) (pack : Write → Bytes) (L : List Bytes) (origin name v : Bytes) (m : ℕ)
    (mirror isComplete : Bool) (body : Bytes) (params : WriteInstructions) (links : Links) : Prop where
  passing : Passing L origin name v m params
  complete : params.isComplete = isComplete
  linked : Linked capacity pack L origin name v m body.length body (if isComplete then [[]] else []) params.outstream
    links.conns
  acked : Acked L origin name v m body.length mirror links.acks

variable {mirror : Bool} {flushed : Option ℕ} {body : Bytes}

lemma Behind.append (h : Behind capacity pack L origin name v m mirror flushed body params links) (data : Bytes) :
    Behind capacity pack L origin name v m mirror flushed (body ++ data) params links := by
  cases flushed with
  | none => exact h
  | some e =>
    obtain ⟨hpassing, hoffset, he, hlinked, hacked⟩ := h
    refine ⟨hpassing, hoffset, ?_, hlinked.append data he, hacked⟩
    rw [List.length_append]
    omega

lemma Behind.finish (hc : 0 < capacity) (hplace : Place node L origin name m) {s : StoreState (Callbacks Links)}
    (h : Behind capacity pack L origin name v m mirror flushed body params s.callbacks.others)
    (hversion : params.version = v) {reader : Readstream} (hcontent : (s.fs.file reader.inode).content = body)
    (hbody : body.length < 2 ^ 63) :
    let r := whenWriteFinishesOn (fun _ => true) capacity pack node mirror params reader s
    r.2.fs = s.fs ∧ r.2.host = s.host ∧
      Finished capacity pack L origin name v m mirror params.isComplete body r.1 r.2.callbacks.others := by
  have hsent : let sent := writeChainFunct (fun _ => true) capacity pack node (!mirror) params body s.callbacks.others
      Passing L origin name v m sent.1 ∧ sent.1.isComplete = params.isComplete ∧ sent.2.acks = s.callbacks.others.acks ∧
        Linked capacity pack L origin name v m body.length body (if params.isComplete then [[]] else [])
          sent.1.outstream sent.2.conns := by
    cases flushed with
    | none =>
      obtain ⟨hopening, -, hlinks⟩ := h
      exact hplace.open hc _ hopening hversion (by rw [hlinks]) hbody
    | some e =>
      obtain ⟨hpassing, rfl, he, hlinked, -⟩ := h
      exact hplace.go_on hc _ hpassing he hlinked hbody
  have hacked : Acked L origin name v m body.length mirror s.callbacks.others.acks := by
    cases flushed with
    | none =>
      obtain ⟨-, -, hlinks⟩ := h
      rw [hlinks]
      exact fun ack hack => absurd hack List.not_mem_nil
    | some e =>
      obtain ⟨-, -, he, -, hacked⟩ := h
      intro ack hack
      obtain ⟨hmirror, hlast, horigin, hname, hversion', hsize⟩ := hacked ack hack
      exact ⟨hmirror, hlast, horigin, hname, hversion', hsize.trans he⟩
  obtain ⟨hpassing, hcomplete, hacks, hlinked⟩ := hsent
  simp only [whenWriteFinishesOn, hcontent]
  refine ⟨trivial, trivial, hpassing, hcomplete, hlinked, ?_⟩
  rw [hacks]
  intro ack hack
  rcases List.mem_append.1 hack with hack | hack
  · exact hacked ack hack
  · cases mirror with
    | false => simp at hack
    | true => exact hpassing.acked hplace body.length ack hack

end Place

end ChainWrite

end Turbopump
