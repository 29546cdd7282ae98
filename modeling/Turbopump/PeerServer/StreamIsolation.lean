import Turbopump.PeerServer.PeerCommandRunner
import Turbopump.Lib.Runs

/-! The commands of one stream do not depend on the packets of the others. -/

namespace Turbopump

namespace PeerCommandRunner

section Owned

variable {γ : Type}

def owned (v : UInt8) : List UInt8 → List γ → List γ
  | o :: owners, c :: heap => if o = v then c :: owned v owners heap else owned v owners heap
  | _, _ => []

def place (v : UInt8) (owners : List UInt8) (n : ℕ) : ℕ := (owners.take n).count v

variable {v o : UInt8} {owners : List UInt8} {heap : List γ} {n : ℕ}

lemma owned_getElem? (hlen : owners.length = heap.length) (h : owners[n]? = some v) :
    (owned v owners heap)[place v owners n]? = heap[n]? := by
  induction owners generalizing heap n with
  | nil => simp at h
  | cons o owners ih =>
    obtain ⟨c, heap, rfl⟩ := List.exists_cons_of_length_eq_add_one hlen.symm
    have hlen' : owners.length = heap.length := by simpa using hlen
    cases n with
    | zero =>
      obtain rfl : o = v := by simpa using h
      simp [owned, place]
    | succ n =>
      have hn := ih hlen' (by simpa using h)
      by_cases ho : o = v
      · simpa [owned, place, ho] using hn
      · simpa [owned, place, ho] using hn

lemma owned_set (hlen : owners.length = heap.length) (h : owners[n]? = some o) (c : γ) : owned v owners (heap.set n c) =
    if o = v then (owned v owners heap).set (place v owners n) c else owned v owners heap := by
  induction owners generalizing heap n with
  | nil => simp at h
  | cons o' owners ih =>
    obtain ⟨c', heap, rfl⟩ := List.exists_cons_of_length_eq_add_one hlen.symm
    have hlen' : owners.length = heap.length := by simpa using hlen
    cases n with
    | zero =>
      obtain rfl : o' = o := by simpa using h
      by_cases ho : o' = v
      · simp [owned, place, ho]
      · simp [owned, ho]
    | succ n =>
      have hn := ih hlen' (by simpa using h)
      by_cases ho' : o' = v
      · by_cases ho : o = v
        · simpa [owned, place, ho', ho] using hn
        · simpa [owned, place, ho', ho] using hn
      · by_cases ho : o = v
        · simpa [owned, place, ho', ho] using hn
        · simpa [owned, place, ho', ho] using hn

lemma owned_append (hlen : owners.length = heap.length) (o : UInt8) (c : γ) :
    owned v (owners ++ [o]) (heap ++ [c]) = owned v owners heap ++ if o = v then [c] else [] := by
  induction owners generalizing heap with
  | nil =>
    obtain rfl : heap = [] := List.length_eq_zero_iff.1 hlen.symm
    simp [owned]
  | cons o' owners ih =>
    obtain ⟨c', heap, rfl⟩ := List.exists_cons_of_length_eq_add_one hlen.symm
    have hrest : owners.length = heap.length := by simpa using hlen
    have htail := ih hrest
    by_cases ho' : o' = v
    · simp [owned, ho', htail]
    · simp [owned, ho', htail]

lemma place_length (hlen : owners.length = heap.length) : place v owners owners.length =
    (owned v owners heap).length := by
  induction owners generalizing heap with
  | nil => simp [place, owned]
  | cons o owners ih =>
    obtain ⟨c, heap, rfl⟩ := List.exists_cons_of_length_eq_add_one hlen.symm
    have hrest : owners.length = heap.length := by simpa using hlen
    have htail := ih hrest
    by_cases ho : o = v
    · simpa [owned, place, ho] using htail
    · simpa [owned, place, ho] using htail

end Owned

section Handle

variable {γ : Type} {K : CommandCenter Unit γ} {r : PeerCommandRunner Unit γ}

def opened (K : CommandCenter Unit γ) (p : Packet) : Option (γ × Bytes) := match getNext p.payload with
  | (none, _) => none
  | (some header, rest) => (K.command header.virtid header.payload ()).1.map fun cmd => (cmd, rest)

lemma unfinished_some {v : UInt8} {n : ℕ} (h : r.unfinished K v = some n) :
    r.commands v = some n ∧ ∃ cmd, r.heap[n]? = some cmd ∧ K.finished cmd = false := by
  simp only [unfinished] at h
  split at h
  · simp at h
  · rename_i m hm
    split at h
    · simp at h
    · rename_i cmd hcmd
      split_ifs at h with hfinished
      obtain rfl := Option.some.inj h
      exact ⟨hm, cmd, hcmd, by simpa using hfinished⟩

lemma handle_continued {p : Packet} {n : ℕ} {cmd : γ} (h : r.unfinished K p.virtid = some n)
    (hcmd : r.heap[n]? = some cmd) :
    (r.handle K p).heap = r.heap.set n (K.run cmd p.payload ()).1 ∧ (r.handle K p).commands = r.commands := by
  simp [handle, h, runCommand, hcmd]

lemma handle_ignored {p : Packet} (h : r.unfinished K p.virtid = none) (hopened : opened K p = none) :
    (r.handle K p).heap = r.heap ∧ (r.handle K p).commands = r.commands := by
  simp only [handle, h, find]
  simp only [opened] at hopened
  cases hnext : getNext p.payload with
  | mk header rest =>
    cases header with
    | none => exact ⟨rfl, rfl⟩
    | some header =>
      rw [hnext] at hopened
      cases hcommand : K.command header.virtid header.payload () with
      | mk cmd center =>
        cases cmd with
        | none => simp [hcommand]
        | some cmd => simp [hcommand] at hopened

lemma handle_opened {p : Packet} {cmd : γ} {rest : Bytes} (h : r.unfinished K p.virtid = none)
    (hopened : opened K p = some (cmd, rest)) : (r.handle K p).heap = r.heap ++ [(K.run cmd rest ()).1] ∧
      (r.handle K p).commands =
        if K.finished cmd then r.commands else Function.update r.commands p.virtid (some r.heap.length) := by
  simp only [handle, h, find]
  simp only [opened] at hopened
  cases hnext : getNext p.payload with
  | mk header rest' =>
    cases header with
    | none => simp [hnext] at hopened
    | some header =>
      rw [hnext] at hopened
      cases hcommand : K.command header.virtid header.payload () with
      | mk cmd' center =>
        cases cmd' with
        | none => simp [hcommand] at hopened
        | some cmd' =>
          obtain ⟨rfl, rfl⟩ : cmd' = cmd ∧ rest' = rest := by simpa [hcommand] using hopened
          simp [hcommand, runCommand]

end Handle

end PeerCommandRunner

open PeerCommandRunner

structure Dispatch (γ : Type) where
  runner : PeerCommandRunner Unit γ
  owners : List UInt8

structure Stream (γ : Type) where
  served : List γ
  current : Option ℕ

namespace Stream

variable {γ : Type} (K : CommandCenter Unit γ)

def unfinished (st : Stream γ) : Option (ℕ × γ) := match st.current with
  | none => none
  | some n => match st.served[n]? with
    | none => none
    | some cmd => if K.finished cmd then none else some (n, cmd)

def handle (st : Stream γ) (p : Packet) : Stream γ := match st.unfinished K with
  | some (n, cmd) => { st with served := st.served.set n (K.run cmd p.payload ()).1 }
  | none => match opened K p with
    | none => st
    | some (cmd, rest) =>
      ⟨st.served ++ [(K.run cmd rest ()).1], if K.finished cmd then st.current else some st.served.length⟩

end Stream

namespace Dispatch

variable {γ : Type} (K : CommandCenter Unit γ)

def create : Dispatch γ := ⟨PeerCommandRunner.create (), []⟩

def handle (s : Dispatch γ) (p : Packet) : Dispatch γ :=
  let runner := s.runner.handle K p
  ⟨runner, s.owners ++ List.replicate (runner.heap.length - s.runner.heap.length) p.virtid⟩

def parseAndRun (s : Dispatch γ) (buffer : Bytes) : Dispatch γ := (parsePackets buffer).foldl (handle K) s

def receive (groups : List (List Packet)) : Dispatch γ :=
  (groups.map packetFraming.encodeAll).foldl (parseAndRun K) create

def stream (v : UInt8) (s : Dispatch γ) : Stream γ :=
  ⟨owned v s.owners s.runner.heap, (s.runner.commands v).map (place v s.owners)⟩

structure Owning (s : Dispatch γ) : Prop where
  length : s.owners.length = s.runner.heap.length
  commands : ∀ v n, s.runner.commands v = some n → s.owners[n]? = some v

variable {K} {s : Dispatch γ} {p : Packet} {v : UInt8}

lemma Owning.place_append (h : s.Owning) {n : ℕ} (hn : s.runner.commands v = some n) (o : UInt8) :
    place v (s.owners ++ [o]) n = place v s.owners n := by
  have hlt := (List.getElem?_eq_some_iff.1 (h.commands v n hn)).1
  rw [place, place, List.take_append_of_le_length hlt.le]

lemma Owning.unfinished_none (h : s.Owning) (hnone : s.runner.unfinished K v = none) :
    (s.stream v).unfinished K = none := by
  simp only [PeerCommandRunner.unfinished] at hnone
  simp only [Stream.unfinished, stream]
  cases hn : s.runner.commands v with
  | none => rfl
  | some n =>
    rw [hn] at hnone
    simp only [Option.map_some, owned_getElem? h.length (h.commands v n hn)]
    cases hcmd : s.runner.heap[n]? with
    | none => rfl
    | some cmd =>
      simp only [hcmd] at hnone
      split_ifs at hnone with hfinished
      simp only [if_pos hfinished]

lemma Owning.unfinished_some (h : s.Owning) {n : ℕ} (hsome : s.runner.unfinished K v = some n) : ∃ cmd,
    s.runner.heap[n]? = some cmd ∧ s.owners[n]? = some v ∧
      (s.stream v).unfinished K = some (place v s.owners n, cmd) := by
  obtain ⟨hn, cmd, hcmd, hfinished⟩ := PeerCommandRunner.unfinished_some hsome
  have howner := h.commands v n hn
  refine ⟨cmd, hcmd, howner, ?_⟩
  simp [Stream.unfinished, stream, hn, owned_getElem? h.length howner, hcmd, hfinished]

lemma handle_same (h : (s.runner.handle K p).heap.length = s.runner.heap.length) :
    (s.handle K p).owners = s.owners := by
  simp [handle, h]

lemma handle_more (h : (s.runner.handle K p).heap.length = s.runner.heap.length + 1) :
    (s.handle K p).owners = s.owners ++ [p.virtid] := by
  simp [handle, h]

lemma Owning.handle (h : s.Owning) (p : Packet) : (s.handle K p).Owning := by
  cases hunfinished : s.runner.unfinished K p.virtid with
  | some n =>
    obtain ⟨cmd, hcmd, -⟩ := h.unfinished_some hunfinished
    obtain ⟨hheap, hcommands⟩ := handle_continued hunfinished hcmd
    have howners := handle_same (K := K) (s := s) (p := p) (by rw [hheap, List.length_set])
    refine ⟨?_, fun v n hn => ?_⟩
    · rw [howners, Dispatch.handle, hheap, List.length_set, h.length]
    · rw [Dispatch.handle, hcommands] at hn
      rw [howners]
      exact h.commands v n hn
  | none =>
    cases hopened : opened K p with
    | none =>
      obtain ⟨hheap, hcommands⟩ := handle_ignored hunfinished hopened
      have howners := handle_same (K := K) (s := s) (p := p) (by rw [hheap])
      refine ⟨?_, fun v n hn => ?_⟩
      · rw [howners, Dispatch.handle, hheap, h.length]
      · rw [Dispatch.handle, hcommands] at hn
        rw [howners]
        exact h.commands v n hn
    | some pair =>
      obtain ⟨cmd, rest⟩ := pair
      obtain ⟨hheap, hcommands⟩ := handle_opened hunfinished hopened
      have howners := handle_more (K := K) (s := s) (p := p) (by rw [hheap]; simp)
      have hold (v : UInt8) (n : ℕ) (hn : s.runner.commands v = some n) : (s.handle K p).owners[n]? = some v := by
        have hlt := (List.getElem?_eq_some_iff.1 (h.commands v n hn)).1
        rw [howners, List.getElem?_append_left hlt, h.commands v n hn]
      refine ⟨?_, fun v n hn => ?_⟩
      · rw [howners, Dispatch.handle, hheap]
        simp [h.length]
      · rw [Dispatch.handle, hcommands] at hn
        split_ifs at hn with hfinished
        · exact hold v n hn
        · by_cases hv : v = p.virtid
          · rw [hv, Function.update_self, Option.some.injEq] at hn
            rw [howners, ← hn, ← h.length, hv]
            simp
          · rw [Function.update_of_ne hv] at hn
            exact hold v n hn

lemma Owning.stream_handle (h : s.Owning) (p : Packet) (v : UInt8) :
    (s.handle K p).stream v = if p.virtid = v then (s.stream v).handle K p else s.stream v := by
  cases hunfinished : s.runner.unfinished K p.virtid with
  | some n =>
    obtain ⟨cmd, hcmd, howner, hstream⟩ := h.unfinished_some hunfinished
    obtain ⟨hheap, hcommands⟩ := handle_continued hunfinished hcmd
    have howners := handle_same (K := K) (s := s) (p := p) (by rw [hheap, List.length_set])
    rw [stream, howners, Dispatch.handle, hheap, hcommands, owned_set h.length howner]
    by_cases hv : p.virtid = v
    · subst hv
      simp only [if_pos, Stream.handle, hstream]
      rfl
    · rw [if_neg hv, if_neg hv]
      rfl
  | none =>
    have hstream : p.virtid = v → (s.stream v).unfinished K = none := fun hv => hv ▸ h.unfinished_none hunfinished
    cases hopened : opened K p with
    | none =>
      obtain ⟨hheap, hcommands⟩ := handle_ignored hunfinished hopened
      have howners := handle_same (K := K) (s := s) (p := p) (by rw [hheap])
      have hsame : (s.handle K p).stream v = s.stream v := by
        rw [stream, howners, Dispatch.handle, hheap, hcommands]
        rfl
      split_ifs with hv
      · simp only [hsame, Stream.handle, hstream hv, hopened]
      · exact hsame
    | some pair =>
      obtain ⟨cmd, rest⟩ := pair
      obtain ⟨hheap, hcommands⟩ := handle_opened hunfinished hopened
      have howners := handle_more (K := K) (s := s) (p := p) (by rw [hheap]; simp)
      have hold : (s.runner.commands v).map (place v (s.owners ++ [p.virtid])) =
          (s.runner.commands v).map (place v s.owners) := by
        cases hn : s.runner.commands v with
        | none => rfl
        | some n => rw [Option.map_some, Option.map_some, h.place_append hn]
      rw [stream, howners, Dispatch.handle, hheap, hcommands, owned_append h.length]
      by_cases hv : p.virtid = v
      · subst hv
        have hnew : place p.virtid (s.owners ++ [p.virtid]) s.runner.heap.length =
            (owned p.virtid s.owners s.runner.heap).length := by
          rw [← place_length h.length, ← h.length, place, place, List.take_append_of_le_length le_rfl]
        rw [if_pos rfl, if_pos rfl]
        simp only [Stream.handle, hstream rfl, hopened]
        split_ifs with hfinished
        · rw [hold]
          rfl
        · rw [Function.update_self, Option.map_some, hnew]
          rfl
      · rw [if_neg hv, if_neg hv, List.append_nil]
        split_ifs with hfinished
        · rw [hold]
          rfl
        · rw [Function.update_of_ne (Ne.symm hv), hold]
          rfl

lemma receive_eq (K : CommandCenter Unit γ) (groups : List (List Packet)) :
    receive K groups = groups.flatten.foldl (handle K) create := by
  have hparse (s : Dispatch γ) (group : List Packet) : s.parseAndRun K (packetFraming.encodeAll group) =
      group.foldl (handle K) s := by
    rw [parseAndRun, parsePackets, packetFraming.decodeAll_encodeAll]
  rw [receive, List.foldl_map, List.foldl_flatten]
  congr 1
  funext s group
  exact hparse s group

lemma runner_foldl (s : Dispatch γ) (ps : List Packet) :
    (ps.foldl (handle K) s).runner = ps.foldl (PeerCommandRunner.handle K) s.runner := by
  induction ps generalizing s with
  | nil => rfl
  | cons p ps ih => exact ih _

lemma runner_receive (K : CommandCenter Unit γ) (groups : List (List Packet)) : (receive K groups).runner =
    (groups.map packetFraming.encodeAll).foldl (PeerCommandRunner.parseAndRun K) (PeerCommandRunner.create ()) := by
  have hparse (buffers : List Bytes) : ∀ s : Dispatch γ, (buffers.foldl (parseAndRun K) s).runner =
      buffers.foldl (PeerCommandRunner.parseAndRun K) s.runner := by
    induction buffers with
    | nil => exact fun _ => rfl
    | cons b buffers ih =>
      intro s
      rw [List.foldl_cons, List.foldl_cons, ih, parseAndRun, runner_foldl, PeerCommandRunner.parseAndRun]
  exact hparse _ _

lemma stream_receive (K : CommandCenter Unit γ) (groups : List (List Packet)) (v : UInt8) :
    (receive K groups).stream v = (groups.flatten.filter (·.virtid = v)).foldl (Stream.handle K) ⟨[], none⟩ := by
  rw [receive_eq]
  refine foldl_slice Owning (stream v) (Stream.handle K) (·.virtid = v) (fun s p h => h.handle p) (fun s p h => ?_)
    ⟨rfl, fun v n hn => ?_⟩ _
  · simp only [h.stream_handle, decide_eq_true_eq]
  · simp [create, PeerCommandRunner.create] at hn

end Dispatch

structure Served where
  command : UInt8
  header : Bytes
  payloads : List Bytes := []
  deriving DecidableEq

def recording (known : UInt8 → Bytes → Bool) (finished : UInt8 → Bytes → List Bytes → Bool) :
    CommandCenter Unit Served where
  command id header _ := (if known id header then some ⟨id, header, []⟩ else none, ())
  finished cmd := finished cmd.command cmd.header cmd.payloads
  run cmd payload _ := ({ cmd with payloads := cmd.payloads ++ [payload] }, ())

namespace Dispatch

def served (v : UInt8) (s : Dispatch Served) : List Served := owned v s.owners s.runner.heap

theorem served_receive (known : UInt8 → Bytes → Bool) (finished : UInt8 → Bytes → List Bytes → Bool)
    (groups : List (List Packet)) (v : UInt8) :
    (receive (recording known finished) groups).runner = (groups.map packetFraming.encodeAll).foldl
        (PeerCommandRunner.parseAndRun (recording known finished)) (PeerCommandRunner.create ()) ∧
      (receive (recording known finished) groups).served v =
        (receive (recording known finished) [groups.flatten.filter (·.virtid = v)]).served v := by
  have hserved (groups : List (List Packet)) : (receive (recording known finished) groups).served v =
      ((receive (recording known finished) groups).stream v).served := rfl
  refine ⟨runner_receive _ groups, ?_⟩
  rw [hserved, hserved, stream_receive, stream_receive, List.flatten_singleton, List.filter_filter]
  simp only [Bool.and_self]

example : served 33 (receive (recording (fun _ _ => true) fun _ _ _ => false)
    [[⟨33, package 100 (ascii "header"), by decide⟩],
      [⟨33, ascii "data", by decide⟩, ⟨35, package 101 (ascii "diff"), by decide⟩, ⟨33, ascii "more", by decide⟩]]) =
    [⟨100, ascii "header", [[], ascii "data", ascii "more"]⟩] := by
  decide +kernel

end Dispatch

end Turbopump
