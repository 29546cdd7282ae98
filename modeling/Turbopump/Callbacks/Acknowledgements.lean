import Turbopump.Callbacks.RelayedWrite

/-! A write that is passed along its locations, whatever the order of its packets and acknowledgements: when its source
drops it, and where it is then. -/

namespace Turbopump

open FileStore ChainWrite WriteCommand
open MirrorSession (Cut)
open VectorClock (IsVersion)

/-- The nodes' stores, the write command of the user's request, and of each connection the command at its other end and
how many of its packets that has taken. -/
structure ChainCluster where
  store : Bytes → StoreState (Callbacks Links)
  writer : WriteCommand Writestream
  serving : Bytes × ℕ → Option (WriteCommand Writestream) := fun _ => none
  received : Bytes × ℕ → ℕ := fun _ => 0

inductive ChainStep where
  | feed (buff : Bytes)
  | deliver (source : Bytes) (i : ℕ)
  | acknowledge (source : Bytes) (i : ℕ)

namespace ChainCluster

section Steps

variable (T : TurboLib) (hasher : Bytes → Bytes) (capacity : ℕ) (pack : Write → Bytes) (unpack : Bytes → Option Write)
  (nodes : Bytes → ChainNode) (keyIsMine : Bytes → Bytes → ℕ → Bool) (origin : Bytes)

def feed (buff : Bytes) (s : ChainCluster) : ChainCluster :=
  let (writer, store) := WriteCommand.feed (chainEnv capacity pack (nodes origin) false T hasher)
    (s.writer, s.store origin) buff
  { s with writer := writer, store := Function.update s.store origin store }

def serve (conn : Bytes × ℕ) (uid : Bytes) (c : WriteCommand Writestream) (buff : Bytes) (s : ChainCluster) :
    ChainCluster :=
  let (c, store) := WriteCommand.feed (chainEnv capacity pack (nodes uid) true T hasher) (c, s.store uid) buff
  { s with store := Function.update s.store uid store, serving := Function.update s.serving conn (some c) }

/-- The next packet of a connection: a request that begins a command, or a buffer for the one that goes on. -/
def deliver (conn : Bytes × ℕ) (s : ChainCluster) : ChainCluster :=
  match (s.store conn.1).callbacks.others.conns[conn.2]? with
  | none => s
  | some (peer, stream) => match stream.conn.writer.taken[s.received conn]? with
    | none => s
    | some packet =>
      let s := { s with received := Function.update s.received conn (s.received conn + 1) }
      match (s.serving conn).filter fun c => !c.finished with
      | some c => s.serve T hasher capacity pack nodes conn peer.peer.uid c packet
      | none => match unpack packet with
        | none => s
        | some request => s.serve T hasher capacity pack nodes conn peer.peer.uid (.create request) []

def acknowledge (source : Bytes) (i : ℕ) (s : ChainCluster) : ChainCluster :=
  match (s.store source).callbacks.others.acks[i]? with
  | none => s
  | some (peer, ack) => { s with
      store := Function.update s.store peer.peer.uid
        (AckWriteCommand.run T (keyIsMine peer.peer.uid) ack (s.store peer.peer.uid)).2 }

def step (s : ChainCluster) : ChainStep → ChainCluster
  | .feed buff => s.feed T hasher capacity pack nodes origin buff
  | .deliver source i => s.deliver T hasher capacity pack unpack nodes (source, i)
  | .acknowledge source i => s.acknowledge T keyIsMine source i

def run (s : ChainCluster) (steps : List ChainStep) : ChainCluster :=
  steps.foldl (step T hasher capacity pack unpack nodes keyIsMine origin) s

end Steps

def fed (steps : List ChainStep) : List Bytes := steps.filterMap fun a => match a with
  | .feed buff => some buff
  | _ => none

end ChainCluster

lemma AckWriteCommand.run_leaves {T : TurboLib} {θ : Type} {keyIsMine : Bytes → ℕ → Bool} {params : AckWrite}
    (hv : IsVersion T params.version) (s : StoreState (Callbacks θ)) :
    (AckWriteCommand.run T keyIsMine params s).2.callbacks.others = s.callbacks.others ∧
      ((AckWriteCommand.run T keyIsMine params s).2 = s ∨
        ∃ k, s.fs.lookup (dirpath params.name) params.version = some k ∧
          (s.fs.file k).content.length = params.size) := by
  have hdrop : (SkewCorrector.dropKey T s params.name).2.callbacks.others = s.callbacks.others := by
    rw [SkewCorrector.dropKey]
    cases FileStore.read T s.fs params.name [] false with
    | threw => rfl
    | refused => rfl
    | accepted reader => cases FileStore.remove s.fs params.name with
      | mk removed fs => cases removed <;> rfl
  rw [AckWriteCommand.run]
  cases hread : FileStore.read T s.fs params.name params.version false with
  | threw => exact ⟨rfl, .inl rfl⟩
  | refused => exact ⟨rfl, .inl rfl⟩
  | accepted reader =>
    have hfind : s.fs.lookup (dirpath params.name) params.version = some reader.inode := by
      rw [FileStore.read, hv.fromString] at hread
      simp only [if_neg hv.ofName_ne_nil, read.openReader, hv.toString_ofName, filepath_eq hv, FileSystem.find_concat,
        Bool.false_eq_true, if_false, Option.none_or] at hread
      cases hlookup : s.fs.lookup (dirpath params.name) params.version with
      | none => simp [hlookup] at hread
      | some inode =>
        simp only [hlookup] at hread
        rw [← StoreAnswer.accepted.inj hread]
    dsimp only
    split
    · exact ⟨rfl, .inl rfl⟩
    · next hsize =>
      rw [not_not] at hsize
      split
      · exact ⟨rfl, .inl rfl⟩
      · exact ⟨hdrop, .inr ⟨reader.inode, hfind, hsize⟩⟩

structure Route where
  origin : Bytes
  L : List Bytes
  name : Bytes
  v : Bytes
  request : Write

def Links.packets (links : Links) : List Bytes := match links.conns[0]? with
  | none => []
  | some (_, stream) => stream.conn.writer.taken

@[simp] lemma Links.packets_nil : ({} : Links).packets = [] := rfl

/-- What a command is run on: an empty buffer when the request has come in, then each packet. -/
def buffersOf : List Bytes → List Bytes
  | [] => []
  | _ :: packets => [] :: packets

lemma Links.Grows.packets {links links' : Links} (h : links.Grows links') : links.packets <+: links'.packets := by
  rw [Links.packets]
  split
  · exact List.nil_prefix
  · next peer stream hconns =>
    obtain ⟨stream', hconns', -, htaken⟩ := h 0 peer stream hconns
    rw [Links.packets, hconns']
    exact htaken

lemma buffersOf_take_succ {packets : List Bytes} {r : ℕ} {packet : Bytes} (h : packets[r]? = some packet) :
    buffersOf (packets.take (r + 1)) = buffersOf (packets.take r) ++ [if r = 0 then [] else packet] := by
  cases packets with
  | nil => simp at h
  | cons first packets => cases r with
    | zero => rfl
    | succ r =>
      rw [List.getElem?_cons_succ] at h
      rw [List.take_succ_cons, List.take_succ_cons, buffersOf, buffersOf, List.take_add_one, h, if_neg r.succ_ne_zero]
      rfl

section Sent

variable {capacity : ℕ} {pack : Write → Bytes} {L : List Bytes} {origin name v : Bytes} {m : ℕ} {content : Bytes}
  {finished : Bool} {links : Links}

lemma Sent.buffers (h : Sent capacity pack L origin name v m content finished links) (r : ℕ) :
    contentOf (buffersOf (links.packets.take r)) <+: content ∧
      ([] ∈ (buffersOf (links.packets.take r)).tail → finished = true ∧ links.packets.length ≤ r ∧
        contentOf (buffersOf (links.packets.take r)) = content) := by
  cases h with
  | nothing hconns => simp [Links.packets, hconns, buffersOf, contentOf]
  | packets peer stream data tail hconns hpeer htaken hdata hextends htail =>
    have hpackets : links.packets =
        WriteSupervisor.reqHeader pack (requestTo L origin name v (m + 1)) :: (data ++ tail) := by
      rw [Links.packets, hconns, ← htaken]
      rfl
    rw [hpackets]
    cases r with
    | zero => simp [buffersOf, contentOf]
    | succ r =>
      have hwhile : (data ++ tail).takeWhile (· ≠ []) = data := by
        rw [List.takeWhile_append_of_pos]
        · rcases htail with rfl | ⟨rfl, -⟩
          · simp
          · simp
        · intro b hb
          simpa using fun hnil : b = [] => hdata.1 (hnil ▸ hb)
      have hcontent : contentOf (buffersOf ((WriteSupervisor.reqHeader pack (requestTo L origin name v (m + 1)) ::
          (data ++ tail)).take (r + 1))) = (data.take r).flatten := by
        rw [contentOf, List.take_succ_cons, buffersOf, List.tail_cons, ← List.take_takeWhile, hwhile]
        rfl
      rw [hcontent]
      refine ⟨(List.take_prefix r data).flatten.trans hextends, fun hend => ?_⟩
      have hlong : data.length < r := by
        by_contra hshort
        rw [List.take_succ_cons, buffersOf, List.tail_cons, List.take_append_of_le_length (not_lt.1 hshort)] at hend
        exact hdata.1 (List.mem_of_mem_take hend)
      rcases htail with rfl | ⟨rfl, hfinished, hall⟩
      · rw [List.take_succ_cons, buffersOf, List.tail_cons, List.append_nil] at hend
        exact absurd (List.mem_of_mem_take hend) hdata.1
      · refine ⟨hfinished, ?_, ?_⟩
        · simpa using hlong
        · rw [List.take_of_length_le hlong.le, hall]

lemma Sent.packet (h : Sent capacity pack L origin name v m content finished links) {r : ℕ} {packet : Bytes}
    (hpacket : links.packets[r]? = some packet) (hr : r ≠ 0) : packet.length ≤ capacity := by
  cases h with
  | nothing hconns => simp [Links.packets, hconns] at hpacket
  | packets peer stream data tail hconns hpeer htaken hdata hextends htail =>
    obtain ⟨r, rfl⟩ := Nat.exists_eq_succ_of_ne_zero hr
    rw [Links.packets, hconns] at hpacket
    replace hpacket : stream.conn.writer.taken[r + 1]? = some packet := hpacket
    rw [htaken, List.getElem?_cons_succ] at hpacket
    rcases List.mem_append.1 (List.mem_of_getElem? hpacket) with hmem | hmem
    · exact hdata.2 packet hmem
    · rcases htail with rfl | ⟨rfl, -⟩
      · exact absurd hmem List.not_mem_nil
      · rw [List.mem_singleton.1 hmem]
        exact Nat.zero_le _

end Sent

lemma chainEnv_moves (capacity : ℕ) (pack : Write → Bytes) (node : ChainNode) (mirror : Bool) (T : TurboLib)
    (hasher : Bytes → Bytes) : Moves (fun s s' => s.callbacks.others.Grows s'.callbacks.others)
      (chainEnv capacity pack node mirror T hasher) where
  refl _ := .refl _
  trans := .trans
  store _ _ := .refl _
  write _ _ _ := .refl _
  commit _ _ _ := .refl _
  onCommit _ _ _ := whenWriteFinishesOn_grows _ _ _

namespace Route

variable (w : Route)

def node (m : ℕ) : Bytes := (w.origin :: w.L).getD m []

def requestAt : ℕ → Write
  | 0 => w.request
  | m + 1 => requestTo w.L w.origin w.name w.v (m + 1)

def buffsAt (buffs : List Bytes) (s : ChainCluster) : ℕ → List Bytes
  | 0 => buffs
  | m + 1 => buffersOf ((s.store (w.node m)).callbacks.others.packets.take (s.received (w.node m, 0)))

def commandAt (s : ChainCluster) : ℕ → WriteCommand Writestream
  | 0 => s.writer
  | m + 1 => (s.serving (w.node m, 0)).getD (.create (w.requestAt (m + 1)))

/-- The locations but the last, and the last if it is the only one. -/
def Others (m : ℕ) : Prop := m + 1 < w.L.length ∨ m = 0

def Spread (M : ℕ → Prop) (s : ChainCluster) : Prop :=
  w.L ≠ [] ∧ ∀ m < w.L.length, M m → (w.commandAt s (m + 1)).finished = true

/-- What is relied on of the nodes before the user's request. -/
structure Ready (capacity : ℕ) (pack : Write → Bytes) (unpack : Bytes → Option Write) (T : TurboLib)
    (nodes : Bytes → ChainNode) (start : ChainCluster) : Prop where
  places : ∀ m ≤ w.L.length, Place (nodes (w.node m)) w.L w.origin w.name m
  prepared : ∀ m ≤ w.L.length, Prepared T w.L w.origin w.name w.v m (w.requestAt m) (start.store (w.node m))
  requests : ∀ m < w.L.length,
    unpack (WriteSupervisor.reqHeader pack (w.requestAt (m + 1))) = some (w.requestAt (m + 1))
  writer : start.writer = .create w.request
  serving : ∀ conn, start.serving conn = none
  received : ∀ conn, start.received conn = 0
  outside : ∀ uid, (start.store uid).callbacks.others = {}

variable (capacity : ℕ) (pack : Write → Bytes) (T : TurboLib) (start : ChainCluster) (buffs : List Bytes)

def PhaseAt (s : ChainCluster) (m : ℕ) (store : StoreState (Callbacks Links)) : Prop :=
  Phase capacity pack T w.L w.origin w.name w.v m (decide (m ≠ 0)) (w.requestAt m) (start.store (w.node m))
    (w.buffsAt buffs s m) (w.commandAt s m) store

-- A command and the store that it has left, which the origin may have dropped the key from since, once the write has
-- been spread to the locations of `M`.
def Standing (M : ℕ → Prop) (s : ChainCluster) (m : ℕ) : Prop :=
  ∃ store, w.PhaseAt capacity pack T start buffs s m store ∧
    store.callbacks.others = (s.store (w.node m)).callbacks.others ∧
    (store = s.store (w.node m) ∨ m = 0 ∧ s.writer.finished = true ∧ w.Spread M s)

structure OnWay (M : ℕ → Prop) (s : ChainCluster) : Prop where
  standing : ∀ m ≤ w.L.length, w.Standing capacity pack T start buffs M s m
  received : ∀ m < w.L.length,
    s.received (w.node m, 0) ≤ (s.store (w.node m)).callbacks.others.packets.length ∧
      (s.serving (w.node m, 0) = none ↔ s.received (w.node m, 0) = 0)
  outside : ∀ uid ∉ w.origin :: w.L, (s.store uid).callbacks.others = {}

variable {w capacity pack T start buffs} {unpack : Bytes → Option Write} {nodes : Bytes → ChainNode} {s : ChainCluster}
  {M : ℕ → Prop}

lemma Ready.onWay (h : w.Ready capacity pack unpack T nodes start) : w.OnWay capacity pack T start [] M start := by
  have hpackets (uid : Bytes) : (start.store uid).callbacks.others.packets = [] := by
    rw [h.outside uid, Links.packets_nil]
  refine ⟨fun m hm => ⟨_, ?_, rfl, .inl rfl⟩, fun m hm => ?_, fun uid _ => h.outside uid⟩
  · have hcommand : w.commandAt start m = .create (w.requestAt m) := by
      cases m with
      | zero => exact h.writer
      | succ m => rw [commandAt, h.serving, Option.getD_none]
    have hbuffs : w.buffsAt [] start m = [] := by
      cases m with
      | zero => rfl
      | succ m => rw [buffsAt, hpackets, List.take_nil, buffersOf]
    rw [PhaseAt, hcommand, hbuffs]
    exact .waiting rfl rfl rfl rfl (.inl ⟨rfl, rfl⟩)
  · rw [hpackets, h.received, h.serving]
    simp

lemma OnWay.silent (hready : w.Ready capacity pack unpack T nodes start) (h : w.OnWay capacity pack T start buffs M s)
    (hnothing : (s.store (w.node 0)).callbacks.others = {}) {m : ℕ} (hm : m ≤ w.L.length) :
    (s.store (w.node m)).callbacks.others = {} := by
  induction m with
  | zero => exact hnothing
  | succ m ih =>
    obtain ⟨store, hphase, hothers, -⟩ := h.standing (m + 1) hm
    have hbuffs : w.buffsAt buffs s (m + 1) = [] := by
      rw [buffsAt, ih (Nat.le_of_succ_le hm), Links.packets_nil, List.take_nil, buffersOf]
    rw [← hothers, (Phase.nothing hphase hbuffs).1, hready.outside]

section OnWay

variable (hready : w.Ready capacity pack unpack T nodes start) (h : w.OnWay capacity pack T start buffs M s)
  (hbound : (contentOf buffs).length < 2 ^ 63)

include hready h hbound

lemma OnWay.bound {m : ℕ} (hm : m ≤ w.L.length) : contentOf (w.buffsAt buffs s m) <+: contentOf buffs := by
  induction m with
  | zero => exact List.prefix_refl _
  | succ m ih =>
    have hextends := ih (by omega)
    obtain ⟨store, hphase, hothers, -⟩ := h.standing m (by omega)
    have hsent := Phase.sent hphase (hready.prepared m (by omega)) (hextends.length_le.trans_lt hbound)
    rw [hothers] at hsent
    exact (hsent.buffers _).1.trans hextends

lemma OnWay.sent {m : ℕ} (hm : m ≤ w.L.length) : Sent capacity pack w.L w.origin w.name w.v m
    (contentOf (w.buffsAt buffs s m)) (w.commandAt s m).finished (s.store (w.node m)).callbacks.others := by
  obtain ⟨store, hphase, hothers, -⟩ := h.standing m hm
  rw [← hothers]
  exact Phase.sent hphase (hready.prepared m hm) ((h.bound hready hbound hm).length_le.trans_lt hbound)

lemma OnWay.finished {m : ℕ} (hm : m < w.L.length) (hfinished : (w.commandAt s (m + 1)).finished = true) :
    (w.commandAt s m).finished = true ∧
      (s.store (w.node m)).callbacks.others.packets.length ≤ s.received (w.node m, 0) ∧
      contentOf (w.buffsAt buffs s (m + 1)) = contentOf (w.buffsAt buffs s m) := by
  obtain ⟨store, hphase, -⟩ := h.standing (m + 1) (by omega)
  exact ((h.sent hready hbound hm.le).buffers _).2 (Phase.ended hphase hfinished).1

lemma OnWay.finished_before {m m' : ℕ} (hm : m ≤ w.L.length) (hle : m' ≤ m)
    (hfinished : (w.commandAt s m).finished = true) : (w.commandAt s m').finished = true ∧
      contentOf (w.buffsAt buffs s m) = contentOf (w.buffsAt buffs s m') := by
  induction hle with
  | refl => exact ⟨hfinished, rfl⟩
  | step hle ih =>
    obtain ⟨hbefore, -, hsame⟩ := h.finished hready hbound hm hfinished
    obtain ⟨hfirst, hsame'⟩ := ih (Nat.le_of_succ_le hm) hbefore
    exact ⟨hfirst, hsame.trans hsame'⟩

lemma OnWay.acked {m : ℕ} (hm : m ≤ w.L.length) :
    ∀ ack ∈ (s.store (w.node m)).callbacks.others.acks, ack.1.peer.uid = w.origin ∧ ack.2.name = w.name ∧
      ack.2.version = w.v ∧ (ack.2.size = (contentOf buffs).length →
        w.L.length ≤ m + 1 ∧ m ≠ 0 ∧ (w.commandAt s m).finished = true) := by
  obtain ⟨store, hphase, hothers, -⟩ := h.standing m hm
  have hextends := (h.bound hready hbound hm).length_le
  have hacked := Phase.acked hphase (hready.prepared m hm) (hextends.trans_lt hbound)
  rw [hothers] at hacked
  intro ack hack
  obtain ⟨hmirror, hlast, horigin, hname, hversion, -, hless⟩ := hacked ack hack
  have hpos : m ≠ 0 := of_decide_eq_true hmirror
  refine ⟨horigin hpos, hname, hversion, fun hsize => ⟨hlast, hpos, ?_⟩⟩
  rw [← Bool.not_eq_false]
  intro hgoing
  have hlt := hless hgoing
  omega

-- the last two locations acknowledge a write, the last but one as soon as it has finished it itself
lemma OnWay.spread_others {m : ℕ} (hm : m ≤ w.L.length) (hlast : w.L.length ≤ m + 1) (hpos : m ≠ 0)
    (hfinished : (w.commandAt s m).finished = true) : w.Spread w.Others s := by
  refine ⟨?_, fun m' hm' hothers => ?_⟩
  · rintro hnil
    rw [hnil] at hm
    exact hpos (Nat.le_zero.1 hm)
  · have hle : m' + 1 ≤ m := by
      rcases hothers with hothers | hothers
      · omega
      · omega
    exact (h.finished_before hready hbound hm hle hfinished).1

lemma OnWay.next_finished {m : ℕ} (hm : m < w.L.length) (hfinished : (w.commandAt s m).finished = true)
    (hdelivered : (s.store (w.node m)).callbacks.others.packets.length ≤ s.received (w.node m, 0))
    (haccepts : FileStore.write T (start.store (w.node (m + 1))).host (start.store (w.node (m + 1))).fs w.name w.v
      (toUnsignedShort w.L.length) ≠ (.refused, (start.store (w.node (m + 1))).fs)) :
    (w.commandAt s (m + 1)).finished = true := by
  obtain ⟨store, hphase, hothers, -⟩ := h.standing m hm.le
  obtain ⟨store', hphase', -⟩ := h.standing (m + 1) hm
  obtain ⟨peer, stream, data, hconns, htaken⟩ := Phase.sent_end hphase
    ((h.bound hready hbound hm.le).length_le.trans_lt hbound) hfinished hm
  refine Phase.accepted hphase' ?_ haccepts
  have hpackets : (s.store (w.node m)).callbacks.others.packets =
      WriteSupervisor.reqHeader pack stream.request :: (data ++ [[]]) := by
    rw [← hothers, Links.packets, hconns, ← htaken]
    rfl
  rw [buffsAt, List.take_of_length_le hdelivered, hpackets, buffersOf]
  simp

end OnWay

structure Touches (w : Route) (m₀ : ℕ) (s s' : ChainCluster) : Prop where
  store : ∀ uid, uid ≠ w.node m₀ → s'.store uid = s.store uid
  grows : (s.store (w.node m₀)).callbacks.others.Grows (s'.store (w.node m₀)).callbacks.others
  conns : ∀ m < w.L.length, m + 1 ≠ m₀ → s'.received (w.node m, 0) = s.received (w.node m, 0) ∧
    s'.serving (w.node m, 0) = s.serving (w.node m, 0)
  writer : m₀ ≠ 0 → s'.writer = s.writer

variable {s' : ChainCluster} {m m₀ : ℕ}

lemma node_mem (hm : m ≤ w.L.length) : w.node m ∈ w.origin :: w.L := by
  rw [node, List.getD_eq_getElem _ _ (Nat.lt_succ_of_le hm)]
  exact List.getElem_mem _

lemma exists_node {uid : Bytes} (huid : uid ∈ w.origin :: w.L) : ∃ m ≤ w.L.length, w.node m = uid := by
  obtain ⟨m, hm, rfl⟩ := List.getElem_of_mem huid
  exact ⟨m, Nat.le_of_lt_succ hm, by rw [node, List.getD_eq_getElem]⟩

lemma Ready.node_inj (hready : w.Ready capacity pack unpack T nodes start) (hm : m ≤ w.L.length)
    (hm₀ : m₀ ≤ w.L.length) (hsame : w.node m = w.node m₀) : m = m₀ := by
  rw [node, node, List.getD_eq_getElem _ _ (Nat.lt_succ_of_le hm),
    List.getD_eq_getElem _ _ (Nat.lt_succ_of_le hm₀)] at hsame
  exact ((hready.places 0 (Nat.zero_le _)).distinct.getElem_inj_iff).1 hsame

lemma Touches.commandAt (htouches : Touches w m₀ s s') (hm : m ≤ w.L.length) (hother : m ≠ m₀) :
    w.commandAt s' m = w.commandAt s m := by
  cases m with
  | zero => exact htouches.writer (Ne.symm hother)
  | succ m => rw [Route.commandAt, Route.commandAt, (htouches.conns m hm hother).2]

lemma Touches.packets (hready : w.Ready capacity pack unpack T nodes start) (htouches : Touches w m₀ s s')
    (hm₀ : m₀ ≤ w.L.length) (hm : m ≤ w.L.length) :
    (s.store (w.node m)).callbacks.others.packets <+: (s'.store (w.node m)).callbacks.others.packets := by
  by_cases hsame : m = m₀
  · subst hsame
    exact htouches.grows.packets
  · rw [htouches.store _ fun heq => hsame (hready.node_inj hm hm₀ heq)]

section Touches

variable (hready : w.Ready capacity pack unpack T nodes start) (h : w.OnWay capacity pack T start buffs M s)
  (htouches : Touches w m₀ s s') (hm₀ : m₀ ≤ w.L.length)

include hready h htouches hm₀

lemma Touches.buffsAt {buffs' : List Bytes} (hbuffs : m₀ ≠ 0 → buffs' = buffs) (hm : m ≤ w.L.length)
    (hother : m ≠ m₀) : w.buffsAt buffs' s' m = w.buffsAt buffs s m := by
  cases m with
  | zero => exact hbuffs (Ne.symm hother)
  | succ m =>
    obtain ⟨more, hmore⟩ := htouches.packets hready hm₀ (Nat.le_of_succ_le hm)
    rw [Route.buffsAt, Route.buffsAt, (htouches.conns m hm hother).1, ← hmore,
      List.take_append_of_le_length (h.received m hm).1]

lemma Touches.onWay {buffs' : List Bytes} (hbuffs : m₀ ≠ 0 → buffs' = buffs)
    (hstanding : w.Standing capacity pack T start buffs' M s' m₀)
    (hreceived : ∀ m < w.L.length, m + 1 = m₀ →
      s'.received (w.node m, 0) ≤ (s.store (w.node m)).callbacks.others.packets.length ∧
        (s'.serving (w.node m, 0) = none ↔ s'.received (w.node m, 0) = 0))
    (hspread : m₀ ≠ 0 → w.Spread M s → w.Spread M s') : w.OnWay capacity pack T start buffs' M s' := by
  refine ⟨fun m hm => ?_, fun m hm => ?_, fun uid huid => ?_⟩
  · by_cases hother : m = m₀
    · exact hother ▸ hstanding
    · obtain ⟨store, hphase, hothers, hcases⟩ := h.standing m hm
      have hnode : w.node m ≠ w.node m₀ := fun heq => hother (hready.node_inj hm hm₀ heq)
      refine ⟨store, ?_, ?_, ?_⟩
      · rw [PhaseAt, htouches.buffsAt hready h hm₀ hbuffs hm hother, htouches.commandAt hm hother]
        exact hphase
      · rw [htouches.store _ hnode, hothers]
      · rw [htouches.store _ hnode]
        refine hcases.imp_right ?_
        rintro ⟨rfl, hfinished, hall⟩
        exact ⟨rfl, by rw [htouches.writer (Ne.symm hother), hfinished], hspread (Ne.symm hother) hall⟩
  · have hlength := (htouches.packets hready hm₀ hm.le).length_le
    by_cases hother : m + 1 = m₀
    · obtain ⟨hle, hserving⟩ := hreceived m hm hother
      exact ⟨hle.trans hlength, hserving⟩
    · obtain ⟨hsame, hsame'⟩ := htouches.conns m hm hother
      rw [hsame, hsame']
      exact ⟨(h.received m hm).1.trans hlength, (h.received m hm).2⟩
  · rw [htouches.store uid fun heq => huid (heq ▸ node_mem hm₀)]
    exact h.outside uid huid

end Touches

section Steps

open ChainCluster (fed)

variable {hasher : Bytes → Bytes} {keyIsMine : Bytes → Bytes → ℕ → Bool}

/-- What is relied on of the write and of the connections. -/
structure Fit (capacity : ℕ) (T : TurboLib) (w : Route) : Prop where
  base64 : T.Base64
  printable : T.Printable
  version : IsVersion T w.v
  named : w.name ≠ []
  pos : 0 < capacity
  small : capacity ≤ 0x10000

lemma OnWay.feed (hfit : Fit capacity T w) (hready : w.Ready capacity pack unpack T nodes start)
    (h : w.OnWay capacity pack T start buffs M s) {buff : Bytes} (hbuff : buff.length ≤ 0x10000) :
    w.OnWay capacity pack T start (buffs ++ [buff]) M (s.feed T hasher capacity pack nodes w.origin buff) := by
  set r := WriteCommand.feed (chainEnv capacity pack (nodes w.origin) false T hasher) (s.writer, s.store w.origin) buff
    with hr
  have hs' : s.feed T hasher capacity pack nodes w.origin buff =
      { s with writer := r.1, store := Function.update s.store w.origin r.2 } := rfl
  have hstore : Function.update s.store w.origin r.2 (w.node 0) = r.2 := Function.update_self _ _ _
  rw [hs']
  have htouches : Touches w 0 s { s with writer := r.1, store := Function.update s.store w.origin r.2 } :=
    { store := fun uid huid => Function.update_of_ne huid _ _
      grows := by
        simp only [hstore]
        exact (chainEnv_moves capacity pack (nodes w.origin) false T hasher).feed
      conns := fun m _ _ => ⟨rfl, rfl⟩
      writer := fun h => absurd rfl h }
  refine htouches.onWay hready h (Nat.zero_le _) (fun h => absurd rfl h) ?_ (fun m _ h => by simp at h)
    (fun h => absurd rfl h)
  obtain ⟨store, hphase, hothers, hcases⟩ := h.standing 0 (Nat.zero_le _)
  have hphase' := Phase.feed hasher hfit.base64 hfit.printable hfit.version hfit.pos hfit.named
    (hready.places 0 (Nat.zero_le _)) (hready.prepared 0 (Nat.zero_le _)) hphase hbuff
  rcases hcases with rfl | ⟨-, hfinished, hall⟩
  · exact ⟨r.2, hphase', by simp only [hstore], .inl hstore.symm⟩
  · have hstays (store : StoreState (Callbacks Links)) : WriteCommand.feed
        (chainEnv capacity pack (nodes w.origin) false T hasher) (s.writer, store) buff = (s.writer, store) := by
      simp [WriteCommand.feed, WriteCommand.run, hfinished]
    have hsame : r = (s.writer, s.store w.origin) := hr.trans (hstays _)
    refine ⟨store, ?_, ?_, .inr ⟨rfl, ?_, ?_⟩⟩
    · have hkept : WriteCommand.feed (chainEnv capacity pack (nodes (w.node 0)) (decide (0 ≠ 0)) T hasher)
          (w.commandAt s 0, store) buff = (s.writer, store) := hstays store
      rw [hkept] at hphase'
      rw [hsame]
      exact hphase'
    · simp only [hsame, Function.update_eq_self]
      exact hothers
    · simp only [hsame]
      exact hfinished
    · exact hall

variable (hasher) in
lemma OnWay.serve (hfit : Fit capacity T w) (hready : w.Ready capacity pack unpack T nodes start)
    (h : w.OnWay capacity pack T start buffs M s) (hm : m < w.L.length) {packet : Bytes}
    (hpacket : (s.store (w.node m)).callbacks.others.packets[s.received (w.node m, 0)]? = some packet)
    (hbuff : (if s.received (w.node m, 0) = 0 then [] else packet).length ≤ 0x10000)
    (hgoing : (w.commandAt s (m + 1)).finished = false) :
    w.OnWay capacity pack T start buffs M
      (({ s with received := Function.update s.received (w.node m, 0) (s.received (w.node m, 0) + 1) }
        : ChainCluster).serve T hasher capacity pack nodes (w.node m, 0) (w.node (m + 1)) (w.commandAt s (m + 1))
          (if s.received (w.node m, 0) = 0 then [] else packet)) := by
  set buff : Bytes := if s.received (w.node m, 0) = 0 then [] else packet with hdef
  set r := WriteCommand.feed (chainEnv capacity pack (nodes (w.node (m + 1))) true T hasher)
    (w.commandAt s (m + 1), s.store (w.node (m + 1))) buff
  set s' : ChainCluster := { s with
    store := Function.update s.store (w.node (m + 1)) r.2
    serving := Function.update s.serving (w.node m, 0) (some r.1)
    received := Function.update s.received (w.node m, 0) (s.received (w.node m, 0) + 1) }
  have hstore : s'.store (w.node (m + 1)) = r.2 := Function.update_self _ _ _
  have hserving : s'.serving (w.node m, 0) = some r.1 := Function.update_self _ _ _
  have hreceived : s'.received (w.node m, 0) = s.received (w.node m, 0) + 1 := Function.update_self _ _ _
  have hconn (m' : ℕ) (hm' : m' < w.L.length) (hother : m' + 1 ≠ m + 1) : (w.node m', 0) ≠ (w.node m, 0) :=
    fun heq => hother (congrArg (· + 1) (hready.node_inj hm'.le hm.le (Prod.mk.inj heq).1))
  have htouches : Touches w (m + 1) s s' :=
    { store := fun uid huid => Function.update_of_ne huid _ _
      grows := by
        rw [hstore]
        exact (chainEnv_moves capacity pack (nodes (w.node (m + 1))) true T hasher).feed
      conns := fun m' hm' hother =>
        ⟨Function.update_of_ne (hconn m' hm' hother) _ _, Function.update_of_ne (hconn m' hm' hother) _ _⟩
      writer := fun _ => rfl }
  refine htouches.onWay hready h hm (fun _ => rfl) ?_ ?_ ?_
  · obtain ⟨store, hphase, hothers, hcases⟩ := h.standing (m + 1) hm
    obtain rfl : store = s.store (w.node (m + 1)) := hcases.resolve_right fun hzero => absurd hzero.1 m.succ_ne_zero
    have hphase' := Phase.feed hasher hfit.base64 hfit.printable hfit.version hfit.pos hfit.named
      (hready.places (m + 1) hm) (hready.prepared (m + 1) hm) hphase hbuff
    have hcommand : w.commandAt s' (m + 1) = r.1 := by rw [commandAt, hserving, Option.getD_some]
    have hbuffs : w.buffsAt buffs s' (m + 1) = w.buffsAt buffs s (m + 1) ++ [buff] := by
      have hnode : w.node m ≠ w.node (m + 1) := fun heq => absurd (hready.node_inj hm.le hm heq) (by omega)
      rw [buffsAt, buffsAt, htouches.store _ hnode, hreceived, buffersOf_take_succ hpacket, hdef]
    refine ⟨r.2, ?_, by rw [hstore], .inl hstore.symm⟩
    rw [PhaseAt, hcommand, hbuffs]
    exact hphase'
  · intro m' hm' hsame
    obtain rfl := Nat.succ.inj hsame
    rw [hserving, hreceived]
    exact ⟨(List.getElem?_eq_some_iff.1 hpacket).1, by simp⟩
  · rintro - ⟨hne, hall⟩
    refine ⟨hne, fun m' hm' hothers => ?_⟩
    by_cases hsame : m' = m
    · have hfinished := hall m' hm' hothers
      rw [hsame, hgoing] at hfinished
      exact absurd hfinished Bool.false_ne_true
    · rw [htouches.commandAt hm' fun heq => hsame (Nat.succ.inj heq)]
      exact hall m' hm' hothers

lemma OnWay.deliver (hfit : Fit capacity T w) (hready : w.Ready capacity pack unpack T nodes start)
    (h : w.OnWay capacity pack T start buffs M s) (hbound : (contentOf buffs).length < 2 ^ 63) (source : Bytes)
    (i : ℕ) : w.OnWay capacity pack T start buffs M (s.deliver T hasher capacity pack unpack nodes (source, i)) := by
  rw [ChainCluster.deliver]
  split
  · exact h
  next peer stream hconns =>
  split
  · exact h
  next packet hpacket =>
  obtain ⟨m, hm, rfl⟩ : ∃ m ≤ w.L.length, w.node m = source := by
    by_contra hno
    have hout := h.outside source fun hmem => hno (exists_node hmem)
    simp [hout] at hconns
  have hsent := h.sent hready hbound hm
  cases hsent with
  | nothing hnone => simp [hnone] at hconns
  | packets peer' stream' data tail hone hpeer htaken hdata hextends htail =>
    rw [hone] at hconns
    cases i with
    | succ i => simp at hconns
    | zero =>
      obtain ⟨rfl, rfl⟩ := Prod.mk.inj (Option.some.inj hconns)
      obtain ⟨hlt, huid⟩ := List.getElem?_eq_some_iff.1 hpeer
      have hnode : peer'.peer.uid = w.node (m + 1) := by
        rw [node, List.getD_cons_succ, List.getD_eq_getElem _ _ hlt, huid]
      have hpackets : (s.store (w.node m)).callbacks.others.packets = stream'.conn.writer.taken := by
        rw [Links.packets, hone]
        rfl
      rw [← hpackets] at hpacket htaken
      rw [hnode]
      cases hserving : s.serving (w.node m, 0) with
      | none =>
        have hzero := (h.received m hlt).2.1 hserving
        have hcommand : w.commandAt s (m + 1) = .create (w.requestAt (m + 1)) := by
          rw [commandAt, hserving, Option.getD_none]
        have hheader : packet = WriteSupervisor.reqHeader pack (w.requestAt (m + 1)) := by
          rw [hzero, htaken] at hpacket
          exact (Option.some.inj hpacket).symm
        have hserve := h.serve hasher hfit hready hlt hpacket
        rw [if_pos hzero, hcommand] at hserve
        rw [hheader]
        simp only [hserving, Option.filter_none, hready.requests m hlt]
        exact hserve (Nat.zero_le _) rfl
      | some c =>
        have hpos : s.received (w.node m, 0) ≠ 0 := fun hzero => by simp [(h.received m hlt).2.2 hzero] at hserving
        have hcommand : w.commandAt s (m + 1) = c := by rw [commandAt, hserving, Option.getD_some]
        have hgoing : c.finished = false := by
          rw [← Bool.not_eq_true]
          intro hfinished
          obtain ⟨-, hall, -⟩ := h.finished hready hbound hlt (hcommand ▸ hfinished)
          exact absurd (List.getElem?_eq_some_iff.1 hpacket).1 (not_lt.2 hall)
        have hbuff : packet.length ≤ 0x10000 := ((h.sent hready hbound hm).packet hpacket hpos).trans hfit.small
        have hserve := h.serve hasher hfit hready hlt hpacket
        rw [if_neg hpos, hcommand] at hserve
        simp only [hserving, Option.filter_some, hgoing, Bool.not_false, if_true]
        exact hserve hbuff hgoing

lemma fed_append (steps more : List ChainStep) : fed (steps ++ more) = fed steps ++ fed more := List.filterMap_append

lemma bound_before {before steps : List ChainStep} (hbefore : before <+: steps)
    (hbound : (contentOf (fed steps)).length < 2 ^ 63) : (contentOf (fed before)).length < 2 ^ 63 := by
  obtain ⟨rest, rfl⟩ := hbefore
  rw [fed_append] at hbound
  exact (contentOf_extends (fed before) (fed rest)).length_le.trans_lt hbound

lemma OnWay.node_of_ack (h : w.OnWay capacity pack T start buffs M s) {source : Bytes} {i : ℕ}
    {ack : PeerPtr × AckWrite} (hack : (s.store source).callbacks.others.acks[i]? = some ack) :
    ∃ m ≤ w.L.length, w.node m = source := by
  by_contra hno
  have hout := h.outside source fun hmem => hno (exists_node hmem)
  simp [hout] at hack

lemma OnWay.spread_of_ack (hready : w.Ready capacity pack unpack T nodes start)
    (h : w.OnWay capacity pack T start buffs M s) (hbound : (contentOf buffs).length < 2 ^ 63) {source : Bytes}
    {i : ℕ} {peer : PeerPtr} {ack : AckWrite} (hack : (s.store source).callbacks.others.acks[i]? = some (peer, ack))
    (hsize : ack.size = (contentOf buffs).length) : w.Spread w.Others s := by
  obtain ⟨m, hm, rfl⟩ := h.node_of_ack hack
  obtain ⟨-, -, -, hwhole⟩ := h.acked hready hbound hm (peer, ack) (List.mem_of_getElem? hack)
  obtain ⟨hlast, hpos, hfinished⟩ := hwhole hsize
  exact h.spread_others hready hbound hm hlast hpos hfinished

variable (keyIsMine) in
lemma OnWay.acknowledged (hfit : Fit capacity T w) (hready : w.Ready capacity pack unpack T nodes start)
    (h : w.OnWay capacity pack T start buffs M s) (hbound : (contentOf buffs).length < 2 ^ 63) {source : Bytes} {i : ℕ}
    {peer : PeerPtr} {ack : AckWrite} (hack : (s.store source).callbacks.others.acks[i]? = some (peer, ack)) :
    (AckWriteCommand.run T (keyIsMine w.origin) ack (s.store w.origin)).2 = s.store w.origin ∨
      s.writer.finished = true ∧ (w.Spread M s ∨
        ack.size = (s.store w.origin).fs.size (filepath w.name w.v) ∧ ack.size = (contentOf buffs).length) := by
  obtain ⟨m, hm, rfl⟩ := h.node_of_ack hack
  obtain ⟨-, hname, hversion, -⟩ := h.acked hready hbound hm (peer, ack) (List.mem_of_getElem? hack)
  dsimp only at hname hversion
  rcases (@AckWriteCommand.run_leaves T Links (keyIsMine w.origin) ack (hversion ▸ hfit.version)
    (s.store w.origin)).2 with hsame | ⟨k, hk, hsize⟩
  · exact .inl hsame
  · refine .inr ?_
    rw [hname, hversion] at hk
    obtain ⟨store, hphase, -, hcases⟩ := h.standing 0 (Nat.zero_le _)
    rcases hcases with rfl | ⟨-, hfinished, hall⟩
    · have hfinished : s.writer.finished = true := by
        rw [← Bool.not_eq_false]
        intro hgoing
        rcases Phase.going hphase hfit.base64 hfit.version (hready.prepared 0 (Nat.zero_le _)) hgoing with hnew | hnone
        · have hnothing : (s.store (w.node 0)).callbacks.others = {} := by rw [hnew, hready.outside]
          rw [h.silent hready hnothing hm] at hack
          simp at hack
        · exact absurd (hnone.symm.trans hk) (by simp)
      obtain ⟨-, -, hcontent⟩ := Phase.ended hphase hfinished
      have hwhole : ((s.store w.origin).fs.file k).content.length = (contentOf buffs).length :=
        congrArg List.length (hcontent k hk)
      refine ⟨hfinished, .inr ⟨?_, hsize.symm.trans hwhole⟩⟩
      rw [FileSystem.size, filepath_eq hfit.version, FileSystem.find_concat]
      simp only [hk]
      exact hsize.symm
    · exact ⟨hfinished, .inl hall⟩

lemma OnWay.acknowledge (hfit : Fit capacity T w) (hready : w.Ready capacity pack unpack T nodes start)
    (h : w.OnWay capacity pack T start buffs M s) (hbound : (contentOf buffs).length < 2 ^ 63) {source : Bytes} {i : ℕ}
    (hspread : ∀ peer ack, (s.store source).callbacks.others.acks[i]? = some (peer, ack) →
      ack.size = (s.store w.origin).fs.size (filepath w.name w.v) → ack.size = (contentOf buffs).length →
        w.Spread M s) : w.OnWay capacity pack T start buffs M (s.acknowledge T keyIsMine source i) := by
  rw [ChainCluster.acknowledge]
  split
  · exact h
  next peer ack hack =>
  have hacknowledged := h.acknowledged keyIsMine hfit hready hbound hack
  obtain ⟨m, hm, rfl⟩ := h.node_of_ack hack
  obtain ⟨horigin, -, hversion, -⟩ := h.acked hready hbound hm (peer, ack) (List.mem_of_getElem? hack)
  dsimp only at horigin hversion
  rw [horigin]
  have hothers := (@AckWriteCommand.run_leaves T Links (keyIsMine w.origin) ack (hversion ▸ hfit.version)
    (s.store w.origin)).1
  set left := (AckWriteCommand.run T (keyIsMine w.origin) ack (s.store w.origin)).2
  have hstore : Function.update s.store w.origin left (w.node 0) = left := Function.update_self _ _ _
  have htouches : Touches w 0 s { s with store := Function.update s.store w.origin left } :=
    { store := fun uid huid => Function.update_of_ne huid _ _
      grows := by
        simp only [hstore, hothers]
        exact .refl _
      conns := fun m _ _ => ⟨rfl, rfl⟩
      writer := fun _ => rfl }
  refine htouches.onWay hready h (Nat.zero_le _) (fun _ => rfl) ?_ (fun m _ h => by simp at h)
    (fun h => absurd rfl h)
  obtain ⟨store, hphase, hsame, hcases⟩ := h.standing 0 (Nat.zero_le _)
  refine ⟨store, hphase, ?_, ?_⟩
  · simp only [hstore, hothers]
    exact hsame
  rcases hcases with rfl | ⟨-, hfinished, hall⟩
  · rcases hacknowledged with hkept | ⟨hfinished, hall | ⟨hfile, hwhole⟩⟩
    · exact .inl (hkept.symm.trans hstore.symm)
    · exact .inr ⟨rfl, hfinished, hall⟩
    · exact .inr ⟨rfl, hfinished, hspread peer ack hack hfile hwhole⟩
  · exact .inr ⟨rfl, hfinished, hall⟩

lemma onWay_run (hfit : Fit capacity T w) (hready : w.Ready capacity pack unpack T nodes start)
    {steps : List ChainStep} (hsteps : ∀ buff ∈ fed steps, buff.length ≤ 0x10000)
    (hbound : (contentOf (fed steps)).length < 2 ^ 63)
    (hspread : ∀ before source i, before ++ [.acknowledge source i] <+: steps →
      let s := start.run T hasher capacity pack unpack nodes keyIsMine w.origin before
      w.OnWay capacity pack T start (fed before) M s → ∀ peer ack,
        (s.store source).callbacks.others.acks[i]? = some (peer, ack) →
          ack.size = (s.store w.origin).fs.size (filepath w.name w.v) →
            ack.size = (contentOf (fed before)).length → w.Spread M s) :
    w.OnWay capacity pack T start (fed steps) M
      (start.run T hasher capacity pack unpack nodes keyIsMine w.origin steps) := by
  induction steps using List.reverseRecOn with
  | nil => exact hready.onWay
  | append_singleton steps a ih =>
    have hfed : fed (steps ++ [a]) = fed steps ++ fed [a] := fed_append _ _
    have hshort := bound_before (List.prefix_append steps [a]) hbound
    have h := ih (fun buff hbuff => hsteps buff (hfed ▸ List.mem_append_left _ hbuff)) hshort
      fun before source i hbefore => hspread before source i (hbefore.trans (List.prefix_append _ _))
    rw [ChainCluster.run, List.foldl_append, hfed]
    cases a with
    | feed buff => exact h.feed hfit hready (hsteps buff (hfed ▸ List.mem_append_right _ List.mem_cons_self))
    | deliver source i =>
      rw [show fed [.deliver source i] = [] from rfl, List.append_nil]
      exact h.deliver hfit hready hshort source i
    | acknowledge source i =>
      rw [show fed [.acknowledge source i] = [] from rfl, List.append_nil]
      exact h.acknowledge hfit hready hshort (hspread steps source i (List.prefix_refl _) h)

lemma onWay_others (hfit : Fit capacity T w) (hready : w.Ready capacity pack unpack T nodes start)
    {steps : List ChainStep} (hsteps : ∀ buff ∈ fed steps, buff.length ≤ 0x10000)
    (hbound : (contentOf (fed steps)).length < 2 ^ 63) : w.OnWay capacity pack T start (fed steps) w.Others
      (start.run T hasher capacity pack unpack nodes keyIsMine w.origin steps) := by
  exact onWay_run hfit hready hsteps hbound fun before source i hbefore h peer ack hack _ hsize =>
    h.spread_of_ack hready (bound_before ((List.prefix_append before _).trans hbefore) hbound) hack hsize

lemma OnWay.committed (hready : w.Ready capacity pack unpack T nodes start)
    (h : w.OnWay capacity pack T start buffs M s) (hbound : (contentOf buffs).length < 2 ^ 63) (hm : m < w.L.length)
    (hfinished : (w.commandAt s (m + 1)).finished = true) :
    Committed T (s.store w.L[m]).fs w.name w.v (contentOf buffs) := by
  obtain ⟨store, hphase, -, hcases⟩ := h.standing (m + 1) hm
  obtain rfl : store = s.store (w.node (m + 1)) := hcases.resolve_right fun hzero => absurd hzero.1 m.succ_ne_zero
  obtain ⟨-, hsame⟩ := h.finished_before hready hbound hm (Nat.zero_le (m + 1)) hfinished
  have hnode : w.node (m + 1) = w.L[m] := by rw [node, List.getD_cons_succ, List.getD_eq_getElem _ _ hm]
  rw [← hnode]
  have hcommitted := (Phase.ended hphase hfinished).2.1
  rw [hsame] at hcommitted
  exact hcommitted

theorem committed_along (hfit : Fit capacity T w) (hready : w.Ready capacity pack unpack T nodes start)
    {steps : List ChainStep} (hsteps : ∀ buff ∈ fed steps, buff.length ≤ 0x10000)
    (hbound : (contentOf (fed steps)).length < 2 ^ 63) :
    let s := start.run T hasher capacity pack unpack nodes keyIsMine w.origin steps
    s.writer.finished = true →
      Committed T (s.store w.origin).fs w.name w.v (contentOf (fed steps)) ∨
        (w.L ≠ [] ∧ ∀ (m : ℕ) (hm : m < w.L.length), m + 1 < w.L.length ∨ m = 0 →
          Committed T (s.store w.L[m]).fs w.name w.v (contentOf (fed steps))) := by
  intro s hfinished
  have h : w.OnWay capacity pack T start (fed steps) w.Others s := onWay_others hfit hready hsteps hbound
  obtain ⟨store, hphase, -, hcases⟩ := h.standing 0 (Nat.zero_le _)
  rcases hcases with rfl | ⟨-, -, hne, hall⟩
  · exact .inl (Phase.ended hphase hfinished).2.1
  · exact .inr ⟨hne, fun m hm hothers => h.committed hready hbound hm (hall m hm hothers)⟩

end Steps

section Examples

open ChainCluster (fed)
open ChainedWrite (one one_isVersion vstr_of_write)

def short : Route where
  origin := ascii "o"
  L := [ascii "a", ascii "b"]
  name := ascii "k"
  v := one
  request := { name := ascii "k", version := one, copies := 2 }

def packMirror (request : Write) : Bytes := [UInt8.ofNat request.mirror.toNat]

def unpackMirror (packet : Bytes) : Option Write :=
  packet.getLast?.map fun m => requestTo short.L short.origin short.name short.v m.toNat

def peerOf (uid : Bytes) : PeerPtr := ⟨uid.sum.toNat, { uid := uid }⟩

def shortNode (uid : Bytes) : ChainNode where
  locations := fun _ _ => short.L
  membership := ⟨some (peerOf uid), fun loc => some (peerOf loc)⟩
  reaches := fun _ => true

def shortStart : ChainCluster where
  store := fun _ => ⟨.empty, ⟨[111], 0⟩, ⟨[], {}⟩⟩
  writer := .create short.request

def shortSteps : List ChainStep :=
  [.feed [1, 2, 3, 4, 5], .deliver (ascii "o") 0, .feed []] ++ List.replicate 4 (.deliver (ascii "o") 0) ++
    List.replicate 4 (.deliver (ascii "a") 0) ++ [.acknowledge (ascii "a") 0, .acknowledge (ascii "b") 0]

def shortRun : ChainCluster := shortStart.run .wrapping id 4 packMirror unpackMirror shortNode
  (fun uid _ _ => uid ∈ short.L) short.origin shortSteps

lemma short_fit : Fit 4 .wrapping short :=
  ⟨TurboLib.wrapping_base64, TurboLib.wrapping_printable, one_isVersion, by decide, by decide, by decide⟩

lemma short_accepts (uid : Bytes) : ∃ w fs, FileStore.write .wrapping (shortStart.store uid).host
    (shortStart.store uid).fs short.name short.v 2 = (.accepted w, fs) := ⟨_, _, rfl⟩

lemma short_ready : short.Ready 4 packMirror unpackMirror .wrapping shortNode shortStart where
  places m hm := by
    have hnode : (short.origin :: short.L)[m]? = some (short.node m) := by
      rw [node, List.getD_eq_getElem?_getD, List.getElem?_eq_getElem (Nat.lt_succ_of_le hm), Option.getD_some]
    have hobjects : ∀ uid ∈ short.origin :: short.L, ∀ loc ∈ short.L, loc ≠ uid →
        (peerOf loc).object ≠ (peerOf uid).object := by decide
    refine ⟨by decide, by decide, rfl, ⟨_, hnode, peerOf _, rfl, rfl, fun loc hloc hne => ?_⟩, fun _ => rfl, ?_⟩
    · exact ⟨peerOf loc, rfl, rfl, hobjects _ (node_mem hm) loc hloc hne⟩
    · rintro uid _ ⟨⟩
      rfl
  prepared m hm := by
    obtain ⟨w, fs, hwrite⟩ := short_accepts (short.node m)
    obtain ⟨hvstr, hnew⟩ := vstr_of_write one_isVersion hwrite
    have hreceives : ChainedWrite.Receives .wrapping short.name (shortStart.store (short.node m)) :=
      { keyDir := (Vacant.empty {short.name}).tidy.keyDir rfl
        rooted := .empty
        linked := (Vacant.empty {short.name}).linked _
        memberId := by
          show ∀ b ∈ [111], isPlain b
          decide +kernel }
    have hanswers : Answers .wrapping short.v (short.requestAt m) (shortStart.store (short.node m)) := by
      cases m <;> exact .inr ⟨w, fs, hwrite, hvstr, hnew⟩
    cases m with
    | zero => exact ⟨⟨rfl, rfl, rfl, fun h => absurd rfl h, rfl, rfl⟩, .inr rfl, hreceives, hanswers, rfl⟩
    | succ m => exact ⟨⟨rfl, rfl, rfl, fun _ => rfl, rfl, rfl⟩, .inr rfl, hreceives, hanswers, rfl⟩
  requests := by decide
  writer := rfl
  serving _ := rfl
  received _ := rfl
  outside _ := rfl

lemma short_fed : fed shortSteps = [[1, 2, 3, 4, 5], []] := rfl

lemma short_content : contentOf (fed shortSteps) = [1, 2, 3, 4, 5] := by
  rw [short_fed]
  rfl

lemma short_bound : (contentOf (fed shortSteps)).length < 2 ^ 63 := by
  rw [short_content]
  norm_num

theorem committed_along_example :
    Committed .wrapping (shortRun.store short.origin).fs short.name short.v [1, 2, 3, 4, 5] ∨
      short.L ≠ [] ∧ ∀ (m : ℕ) (hm : m < short.L.length), m + 1 < short.L.length ∨ m = 0 →
        Committed .wrapping (shortRun.store short.L[m]).fs short.name short.v [1, 2, 3, 4, 5] := by
  have hfinished : shortRun.writer.finished = true := by decide +kernel
  rw [shortRun] at hfinished ⊢
  rw [← short_content]
  exact committed_along short_fit short_ready (by simp [short_fed]) short_bound hfinished

end Examples

end Route

end Turbopump
