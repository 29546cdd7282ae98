import Turbopump.PeerServer.Packet

/-! `PacketParser` on views of memory, with the addresses that it reads. -/

namespace Turbopump

structure DataBuffer where
  buffer : ℕ
  size : ℕ
  deriving DecidableEq

namespace DataBuffer

def ofString (address : ℕ) (s : Bytes) : DataBuffer := ⟨address, s.length % 4294967296⟩

def skip (b : DataBuffer) (bytes : ℕ) : DataBuffer :=
  let bytes := if bytes > b.size then b.size else bytes
  ⟨b.buffer + bytes, b.size - bytes⟩

def str (memory : ℕ → UInt8) (b : DataBuffer) : Bytes := (List.range b.size).map fun i => memory (b.buffer + i)

def Covers (b : DataBuffer) (address : ℕ) : Prop := b.buffer ≤ address ∧ address < b.buffer + b.size

def Within (v b : DataBuffer) : Prop := b.buffer ≤ v.buffer ∧ v.buffer + v.size ≤ b.buffer + b.size

def Tail (t b : DataBuffer) : Prop := b.buffer ≤ t.buffer ∧ t.buffer + t.size = b.buffer + b.size

section Views

variable {memory : ℕ → UInt8} {v t b : DataBuffer} {address : ℕ}

@[simp] lemma str_length (b : DataBuffer) : (b.str memory).length = b.size := by
  simp [str]

lemma str_append (address m n : ℕ) :
    str memory ⟨address, m + n⟩ = str memory ⟨address, m⟩ ++ str memory ⟨address + m, n⟩ := by
  simp [str, List.range_add, Function.comp_def, Nat.add_assoc]

lemma str_cons (address n : ℕ) : str memory ⟨address, n + 1⟩ = memory address :: str memory ⟨address + 1, n⟩ := by
  rw [Nat.add_comm, str_append]
  rfl

lemma str_eq_nil : b.str memory = [] ↔ b.size = 0 := by
  rw [← List.length_eq_zero_iff, str_length]

lemma skip_of_le {n : ℕ} (h : n ≤ b.size) : b.skip n = ⟨b.buffer + n, b.size - n⟩ := by
  rw [skip, if_neg (by omega)]

lemma Tail.refl (b : DataBuffer) : b.Tail b := ⟨le_rfl, rfl⟩

lemma Tail.trans {u : DataBuffer} (h : u.Tail t) (hb : t.Tail b) : u.Tail b :=
  ⟨hb.1.trans h.1, h.2.trans hb.2⟩

lemma Tail.within (h : t.Tail b) (hv : v.Within t) : v.Within b := ⟨h.1.trans hv.1, hv.2.trans h.2.le⟩

lemma Tail.covers (h : t.Tail b) (ha : t.Covers address) : b.Covers address :=
  ⟨h.1.trans ha.1, ha.2.trans_le h.2.le⟩

end Views

end DataBuffer

namespace PacketParser

structure Call where
  next : Option (UInt8 × DataBuffer)
  unparsed : DataBuffer
  reads : List ℕ

def lengthAt (memory : ℕ → UInt8) (address : ℕ) : ℕ :=
  -- an `unsigned short`, one less than the field
  (ntohs (memory address) (memory (address + 1)) + 65535) % 65536

def getNext (memory : ℕ → UInt8) (buff : DataBuffer) : Call :=
  if buff.size < 3 then ⟨none, buff, []⟩
  else
    let length := lengthAt memory buff.buffer
    let idBuff := buff.skip 2
    let virtid := memory idBuff.buffer
    let rest := idBuff.skip 1
    let reads := [buff.buffer, buff.buffer + 1, idBuff.buffer]
    if length > rest.size then ⟨none, rest, reads⟩
    else ⟨some (virtid, ⟨rest.buffer, length⟩), rest.skip length, reads⟩

structure Parse where
  found : List (UInt8 × DataBuffer)
  unparsed : DataBuffer
  reads : List ℕ

/-- `while (unparsed.size() > 0) if (!getNext(virtid, buff)) break;` -/
def loop (memory : ℕ → UInt8) : ℕ → DataBuffer → Option Parse
  | 0, _ => none
  | fuel + 1, unparsed =>
    if unparsed.size = 0 then some ⟨[], unparsed, []⟩
    else
      let call := getNext memory unparsed
      match call.next with
      | none => some ⟨[], call.unparsed, call.reads⟩
      | some found => match loop memory fuel call.unparsed with
        | none => none
        | some parse => some ⟨found :: parse.found, parse.unparsed, call.reads ++ parse.reads⟩

def pair (p : Packet) : UInt8 × Bytes := (p.virtid, p.payload)

def view (memory : ℕ → UInt8) (found : UInt8 × DataBuffer) : UInt8 × Bytes := (found.1, found.2.str memory)

def repackage (memory : ℕ → UInt8) (found : List (UInt8 × DataBuffer)) : Bytes :=
  found.flatMap fun f => package f.1 (f.2.str memory)

section Calls

variable {memory : ℕ → UInt8} {b : DataBuffer}

/-- A call in range: it finds what the list of the buffer's bytes holds, and reads and returns only parts of it. -/
structure Finds (memory : ℕ → UInt8) (b : DataBuffer) (call : Call) : Prop where
  next : call.next.map (view memory) = (Turbopump.getNext (b.str memory)).1.map pair
  unparsed : call.unparsed.str memory = (Turbopump.getNext (b.str memory)).2
  tail : call.unparsed.Tail b
  inside : ∀ a ∈ call.reads, b.Covers a
  within : ∀ f ∈ call.next, f.2.Within b

lemma str_short (h : b.size < 3) : Turbopump.getNext (b.str memory) = (none, b.str memory) := by
  have hlen := @DataBuffer.str_length memory b
  match hs : b.str memory with
  | [] => rfl
  | [_] => rfl
  | [_, _] => rfl
  | _ :: _ :: _ :: _ =>
    rw [hs] at hlen
    simp only [List.length_cons] at hlen
    omega

lemma str_header (h : 3 ≤ b.size) : b.str memory = memory b.buffer :: memory (b.buffer + 1) :: memory (b.buffer + 2) ::
    DataBuffer.str memory ⟨b.buffer + 3, b.size - 3⟩ := by
  obtain ⟨buffer, size⟩ := b
  obtain ⟨n, rfl⟩ : ∃ n, size = n + 1 + 1 + 1 := ⟨size - 3, by simp only at h; omega⟩
  rw [DataBuffer.str_cons, DataBuffer.str_cons, DataBuffer.str_cons]
  rfl

lemma getNext_header (h : 3 ≤ b.size) : getNext memory b =
    if lengthAt memory b.buffer > b.size - 3 then
      ⟨none, ⟨b.buffer + 3, b.size - 3⟩, [b.buffer, b.buffer + 1, b.buffer + 2]⟩
    else ⟨some (memory (b.buffer + 2), ⟨b.buffer + 3, lengthAt memory b.buffer⟩),
      DataBuffer.skip ⟨b.buffer + 3, b.size - 3⟩ (lengthAt memory b.buffer),
      [b.buffer, b.buffer + 1, b.buffer + 2]⟩ := by
  have hid : b.skip 2 = ⟨b.buffer + 2, b.size - 2⟩ := DataBuffer.skip_of_le (by omega)
  have hrest : DataBuffer.skip ⟨b.buffer + 2, b.size - 2⟩ 1 = ⟨b.buffer + 3, b.size - 3⟩ :=
    DataBuffer.skip_of_le (show 1 ≤ b.size - 2 by omega)
  simp only [getNext, if_neg (Nat.not_lt.2 h), hid, hrest]

lemma getNext_finds (memory : ℕ → UInt8) (b : DataBuffer) : Finds memory b (getNext memory b) := by
  by_cases hshort : b.size < 3
  · rw [getNext, if_pos hshort]
    exact ⟨by simp [str_short hshort], by simp [str_short hshort], .refl b, by simp, by simp⟩
  have hsize : 3 ≤ b.size := Nat.le_of_not_lt hshort
  have hreads : ∀ a ∈ [b.buffer, b.buffer + 1, b.buffer + 2], b.Covers a := by
    intro a ha
    simp only [List.mem_cons, List.not_mem_nil, or_false] at ha
    simp only [DataBuffer.Covers]
    omega
  rw [getNext_header hsize]
  have hlist := @str_header memory b hsize
  have hrest := @DataBuffer.str_length memory ⟨b.buffer + 3, b.size - 3⟩
  generalize hlength : lengthAt memory b.buffer = length
  by_cases hcut : length > b.size - 3
  · rw [if_pos hcut]
    have hnext : Turbopump.getNext (b.str memory) = (none, DataBuffer.str memory ⟨b.buffer + 3, b.size - 3⟩) := by
      rw [hlist, Turbopump.getNext, if_pos (by rw [hrest]; rwa [← hlength] at hcut)]
    exact ⟨by simp [hnext], by simp [hnext], ⟨Nat.le_add_right _ _, by simp only; omega⟩, hreads, by simp⟩
  · rw [if_neg hcut, DataBuffer.skip_of_le (Nat.le_of_not_lt hcut)]
    have hsplit : DataBuffer.str memory ⟨b.buffer + 3, b.size - 3⟩ = DataBuffer.str memory ⟨b.buffer + 3, length⟩ ++
        DataBuffer.str memory ⟨b.buffer + 3 + length, b.size - 3 - length⟩ := by
      rw [← DataBuffer.str_append, show length + (b.size - 3 - length) = b.size - 3 by omega]
    have hfound : (DataBuffer.str memory ⟨b.buffer + 3, b.size - 3⟩).take length =
        DataBuffer.str memory ⟨b.buffer + 3, length⟩ := by
      rw [hsplit]
      exact List.take_left' (DataBuffer.str_length _)
    have hleft : (DataBuffer.str memory ⟨b.buffer + 3, b.size - 3⟩).drop length =
        DataBuffer.str memory ⟨b.buffer + 3 + length, b.size - 3 - length⟩ := by
      rw [hsplit]
      exact List.drop_left' (DataBuffer.str_length _)
    have hnext : (Turbopump.getNext (b.str memory)).1.map pair =
          some (memory (b.buffer + 2), DataBuffer.str memory ⟨b.buffer + 3, length⟩) ∧
        (Turbopump.getNext (b.str memory)).2 =
          DataBuffer.str memory ⟨b.buffer + 3 + length, b.size - 3 - length⟩ := by
      rw [hlist, Turbopump.getNext, if_neg (by rw [hrest]; rwa [← hlength] at hcut)]
      simp only [lengthAt] at hlength
      simp only [hlength, Option.map_some, pair]
      exact ⟨congrArg (fun s => some (memory (b.buffer + 2), s)) hfound, hleft⟩
    refine ⟨by rw [hnext.1]; rfl, by rw [hnext.2], ⟨by simp only; omega, by simp only; omega⟩, hreads, ?_⟩
    rintro f hf
    obtain rfl : (memory (b.buffer + 2), (⟨b.buffer + 3, length⟩ : DataBuffer)) = f := by simpa using hf
    exact ⟨by simp only; omega, by simp only; omega⟩

end Calls

section Loop

variable {memory : ℕ → UInt8} {b : DataBuffer}

def Stops (memory : ℕ → UInt8) (tail unparsed : DataBuffer) : Prop :=
  tail.size = 0 ∧ unparsed = tail ∨
    (getNext memory tail).next = none ∧ unparsed = (getNext memory tail).unparsed

/-- A finished loop over `b`: it read and returned only parts of `b`, and the packets it found are those of the list
of `b`'s bytes and make up the part of `b` before `tail`. -/
structure Parses (memory : ℕ → UInt8) (b : DataBuffer) (parse : Parse) : Prop where
  returns : ∀ fuel, b.size < fuel → loop memory fuel b = some parse
  inside : ∀ a ∈ parse.reads, b.Covers a
  within : ∀ f ∈ parse.found, f.2.Within b
  found : parse.found.map (view memory) = (parsePackets (b.str memory)).map pair
  accepted : ∃ tail : DataBuffer, tail.Tail b ∧ b.str memory = repackage memory parse.found ++ tail.str memory ∧
    Stops memory tail parse.unparsed

lemma parses_empty (h : b.size = 0) : Parses memory b ⟨[], b, []⟩ := by
  refine ⟨fun fuel hfuel => ?_, by simp, by simp, ?_, b, .refl b, rfl, .inl ⟨h, rfl⟩⟩
  · cases fuel with
    | zero => omega
    | succ fuel => rw [loop, if_pos h]
  · rw [DataBuffer.str_eq_nil.2 h]
    rfl

lemma parses_cut (hsize : b.size ≠ 0) (h : (getNext memory b).next = none) :
    Parses memory b ⟨[], (getNext memory b).unparsed, (getNext memory b).reads⟩ := by
  have hfinds := getNext_finds memory b
  refine ⟨fun fuel hfuel => ?_, hfinds.inside, by simp, ?_, b, .refl b, rfl, .inr ⟨h, rfl⟩⟩
  · cases fuel with
    | zero => omega
    | succ fuel => simp only [loop, if_neg hsize, h]
  · have hnone : (Turbopump.getNext (b.str memory)).1 = none := by
      have hnext := hfinds.next
      rw [h, Option.map_none] at hnext
      exact Option.map_eq_none_iff.1 hnext.symm
    have hdecode : packetFraming.decode (b.str memory) = none := by
      simp only [packetFraming]
      split
      · simp_all
      · rfl
    rw [parsePackets, packetFraming.decodeAll_none hdecode]
    rfl

lemma getNext_found {f : UInt8 × DataBuffer} (h : (getNext memory b).next = some f) :
    ∃ p : Packet, pair p = view memory f ∧
      Turbopump.getNext (b.str memory) = (some p, (getNext memory b).unparsed.str memory) := by
  have hfinds := getNext_finds memory b
  have hnext := hfinds.next
  rw [h, Option.map_some, eq_comm, Option.map_eq_some_iff] at hnext
  obtain ⟨p, hp, hpair⟩ := hnext
  exact ⟨p, hpair, Prod.ext hp hfinds.unparsed.symm⟩

lemma parses_next {f : UInt8 × DataBuffer} {parse : Parse} (hsize : b.size ≠ 0)
    (h : (getNext memory b).next = some f) (hparse : Parses memory (getNext memory b).unparsed parse) :
    Parses memory b ⟨f :: parse.found, parse.unparsed, (getNext memory b).reads ++ parse.reads⟩ := by
  have hfinds := getNext_finds memory b
  obtain ⟨p, hpair, hlist⟩ := getNext_found h
  have hshorter := getNext_length hlist
  rw [DataBuffer.str_length, DataBuffer.str_length] at hshorter
  obtain ⟨tail, htail, hstr, hstops⟩ := hparse.accepted
  refine ⟨fun fuel hfuel => ?_, fun a ha => ?_, fun g hg => ?_, ?_, tail, htail.trans hfinds.tail, ?_, hstops⟩
  · cases fuel with
    | zero => omega
    | succ fuel => simp only [loop, if_neg hsize, h, hparse.returns fuel (by omega)]
  · rcases List.mem_append.1 ha with ha | ha
    · exact hfinds.inside a ha
    · exact hfinds.tail.covers (hparse.inside a ha)
  · rcases List.mem_cons.1 hg with rfl | hg
    · exact hfinds.within g h
    · exact hfinds.tail.within (hparse.within g hg)
  · have hdecode : packetFraming.decode (b.str memory) = some (p, (getNext memory b).unparsed.str memory) := by
      simp only [packetFraming, hlist]
    rw [parsePackets, packetFraming.decodeAll_some hdecode, List.map_cons, List.map_cons, hpair, hparse.found]
    rfl
  · have hpackage : package f.1 (f.2.str memory) = p.encode := by
      obtain ⟨hid, hpayload⟩ := Prod.mk.inj hpair
      rw [Packet.encode, hid, hpayload]
    have hcons : repackage memory (f :: parse.found) = p.encode ++ repackage memory parse.found := by
      rw [repackage, List.flatMap_cons, hpackage]
      rfl
    rw [getNext_encoded hlist, hstr, hcons, List.append_assoc]

lemma loop_parses (memory : ℕ → UInt8) (b : DataBuffer) : ∃ parse, Parses memory b parse := by
  induction hn : b.size using Nat.strong_induction_on generalizing b with
  | _ n ih =>
    by_cases hsize : b.size = 0
    · exact ⟨_, parses_empty hsize⟩
    cases hnext : (getNext memory b).next with
    | none => exact ⟨_, parses_cut hsize hnext⟩
    | some f =>
      obtain ⟨p, -, hlist⟩ := getNext_found hnext
      have hshorter := getNext_length hlist
      rw [DataBuffer.str_length, DataBuffer.str_length] at hshorter
      obtain ⟨parse, hparse⟩ := ih _ (hn ▸ hshorter) (getNext memory b).unparsed rfl
      exact ⟨_, parses_next hsize hnext hparse⟩

end Loop

section RoundTrip

def holding (memory : ℕ → UInt8) (address : ℕ) (s : Bytes) : ℕ → UInt8 :=
  fun a => if address ≤ a then s.getD (a - address) (memory a) else memory a

lemma str_ofString (memory : ℕ → UInt8) (address : ℕ) (s : Bytes) :
    (DataBuffer.ofString address s).str (holding memory address s) = s.take (s.length % 4294967296) := by
  have hle := Nat.mod_le s.length 4294967296
  apply List.ext_getElem
  · rw [DataBuffer.str_length, List.length_take, min_eq_left hle]
    rfl
  · intro i hi hj
    rw [List.length_take] at hj
    have hlt : i < s.length := by omega
    simp [DataBuffer.str, DataBuffer.ofString, holding, List.getElem?_eq_getElem hlt]

variable {memory : ℕ → UInt8} {b : DataBuffer}

lemma parses_packages (memory : ℕ → UInt8) (address : ℕ) (ps : List Packet) {parse : Parse}
    (h : Parses (holding memory address (packetFraming.encodeAll ps))
      (DataBuffer.ofString address (packetFraming.encodeAll ps)) parse) :
    (parse.found.map (view (holding memory address (packetFraming.encodeAll ps))) = ps.map pair ∧
      parse.unparsed.size = 0) ↔ (packetFraming.encodeAll ps).length < 4294967296 := by
  set s := packetFraming.encodeAll ps with hs
  obtain ⟨tail, htail, hstr, hstops⟩ := h.accepted
  have hfound := h.found
  rw [str_ofString] at hstr hfound
  have hrepackage (hpairs : parse.found.map (view (holding memory address s)) = ps.map pair) :
      repackage (holding memory address s) parse.found = s := by
    have hmap : repackage (holding memory address s) parse.found =
        (parse.found.map (view (holding memory address s))).flatMap fun p => package p.1 p.2 := by
      rw [List.flatMap_map]
      rfl
    rw [hmap, hpairs, List.flatMap_map]
    rfl
  constructor
  · rintro ⟨hpairs, -⟩
    have hlength := congrArg List.length hstr
    rw [hrepackage hpairs, List.length_append, List.length_take] at hlength
    have hmod := Nat.mod_lt s.length (show 0 < 4294967296 by omega)
    omega
  · intro hlength
    rw [Nat.mod_eq_of_lt hlength, List.take_length] at hstr hfound
    rw [parsePackets, hs, packetFraming.decodeAll_encodeAll] at hfound
    rw [hrepackage hfound] at hstr
    have hempty : tail.size = 0 := DataBuffer.str_eq_nil.1 (List.append_right_eq_self.1 hstr.symm)
    refine ⟨hfound, ?_⟩
    rcases hstops with ⟨-, hrest⟩ | ⟨-, hrest⟩
    · rw [hrest, hempty]
    · rw [hrest, getNext, if_pos (by omega), hempty]

lemma getNext_nested {p : Packet} {body : Bytes} (h : b.str memory = p.encode ++ body) :
    (getNext memory b).next.map (view memory) = some (pair p) ∧ (getNext memory b).unparsed.str memory = body := by
  have hfinds := getNext_finds memory b
  rw [hfinds.next, hfinds.unparsed, h, getNext_encode]
  exact ⟨rfl, rfl⟩

end RoundTrip

theorem package_getNext (memory : ℕ → UInt8) :
    (∀ address (ps : List Packet), ∃ parse,
      Parses (holding memory address (packetFraming.encodeAll ps))
        (DataBuffer.ofString address (packetFraming.encodeAll ps)) parse ∧
      ((parse.found.map (view (holding memory address (packetFraming.encodeAll ps))) = ps.map pair ∧
        parse.unparsed.size = 0) ↔ (packetFraming.encodeAll ps).length < 4294967296)) ∧
      (∀ b, ∃ parse, Parses memory b parse) ∧
      ∀ (b : DataBuffer) (p : Packet) body, b.str memory = p.encode ++ body →
        (getNext memory b).next.map (view memory) = some (pair p) ∧
          (getNext memory b).unparsed.str memory = body ∧ ∀ a ∈ (getNext memory b).reads, b.Covers a := by
  refine ⟨fun address ps => ?_, loop_parses memory, fun b p body h => ?_⟩
  · obtain ⟨parse, hparse⟩ := loop_parses (holding memory address (packetFraming.encodeAll ps))
      (DataBuffer.ofString address (packetFraming.encodeAll ps))
    exact ⟨parse, hparse, parses_packages memory address ps hparse⟩
  · obtain ⟨hnext, hrest⟩ := getNext_nested h
    exact ⟨hnext, hrest, (getNext_finds memory b).inside⟩

theorem package_getNext_brooks :
    let memory := holding (fun _ => 0) 8 (package 87 (ascii "brooks") ++ ascii "body")
    (getNext memory ⟨8, 13⟩).next.map (view memory) = some (87, ascii "brooks") ∧
      (getNext memory ⟨8, 13⟩).unparsed.str memory = ascii "body" := by
  have h := (package_getNext (holding (fun _ => 0) 8 (package 87 (ascii "brooks") ++ ascii "body"))).2.2 ⟨8, 13⟩
    ⟨87, ascii "brooks", by decide⟩ (ascii "body") (by decide)
  exact ⟨h.1, h.2.1⟩

lemma encodeAll_replicate (n : ℕ) (p : Packet) :
    (packetFraming.encodeAll (List.replicate n p)).length = n * (p.payload.length + 3) := by
  rw [Framing.encodeAll, List.length_flatMap, List.map_replicate, List.sum_replicate, smul_eq_mul]
  simp

-- packages of 3 · 2^32 bytes are a buffer of no bytes
theorem package_getNext_wrapped : ∃ ps : List Packet, ps = List.replicate 4294967296 ⟨0, [], by simp⟩ ∧ ps ≠ [] ∧
    ∀ memory address fuel, loop (holding memory address (packetFraming.encodeAll ps)) (fuel + 1)
      (DataBuffer.ofString address (packetFraming.encodeAll ps)) = some ⟨[], ⟨address, 0⟩, []⟩ := by
  refine ⟨_, rfl, List.ne_nil_of_length_pos (by rw [List.length_replicate]; omega), fun memory address fuel => ?_⟩
  have hsize : DataBuffer.ofString address (packetFraming.encodeAll (List.replicate 4294967296 ⟨0, [], by simp⟩)) =
      ⟨address, 0⟩ := by
    rw [DataBuffer.ofString, encodeAll_replicate]
    simp
  rw [hsize, loop, if_pos rfl]

end PacketParser

end Turbopump
