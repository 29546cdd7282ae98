import Turbopump.Basic
import Turbopump.Lib.Framing

/-! Packets between peers: two bytes of length, one byte of stream id, the payload. -/

namespace Turbopump

structure Packet where
  virtid : UInt8
  payload : Bytes
  fits : payload.length ≤ 65535
  deriving DecidableEq

/-- `MessagePacker::package`: the length field counts the id byte. -/
def package (id : UInt8) (packet : Bytes) : Bytes := htons (packet.length + 1) ++ id :: packet

/-- `PacketParser::getNext`: the packet found and the unparsed rest, which has lost the three header
bytes even when the payload is cut short. -/
def getNext : Bytes → Option Packet × Bytes
  | hi :: lo :: virtid :: rest =>
    let length := (ntohs hi lo + 65535) % 65536
    if rest.length < length then (none, rest)
    else
      (some ⟨virtid, rest.take length, by
        simp only [length, List.length_take]
        omega⟩, rest.drop length)
  | buff => (none, buff)

def Packet.encode (p : Packet) : Bytes := package p.virtid p.payload

@[simp] lemma package_length (id : UInt8) (packet : Bytes) :
    (package id packet).length = packet.length + 3 := by
  simp [package]
  omega

@[simp] lemma Packet.encode_length (p : Packet) : p.encode.length = p.payload.length + 3 :=
  package_length _ _

@[simp] lemma getNext_encode (p : Packet) (t : Bytes) : getNext (p.encode ++ t) = (some p, t) := by
  obtain ⟨virtid, payload, fits⟩ := p
  have hl : ((payload.length + 1) % 65536 + 65535) % 65536 = payload.length := by omega
  simp only [Packet.encode, package, htons, List.cons_append, List.nil_append, getNext, ntohs_htons, hl]
  rw [if_neg (by simp)]
  simp

lemma getNext_length {s t : Bytes} {p : Packet} (h : getNext s = (some p, t)) : t.length < s.length := by
  rcases s with _ | ⟨hi, _ | ⟨lo, _ | ⟨virtid, rest⟩⟩⟩
  case cons.cons.cons =>
    simp only [getNext] at h
    split at h
    · simp at h
    · obtain ⟨-, rfl⟩ := Prod.mk.inj h
      simp only [List.length_drop, List.length_cons]
      omega
  all_goals simp [getNext] at h

lemma getNext_cut (p : Packet) (k : ℕ) (hk : k < p.encode.length) : (getNext (p.encode.take k)).1 = none := by
  obtain ⟨virtid, payload, fits⟩ := p
  have hl : ((payload.length + 1) % 65536 + 65535) % 65536 = payload.length := by omega
  simp only [Packet.encode, package_length] at hk
  match k with
  | 0 | 1 | 2 => rfl
  | k + 3 =>
    simp only [Packet.encode, package, htons, List.cons_append, List.nil_append, List.take_succ_cons,
      getNext, ntohs_htons, hl]
    rw [if_pos (by rw [List.length_take]; omega)]

lemma htons_ntohs {n : ℕ} {hi lo : UInt8} (h : n % 65536 = ntohs hi lo) : htons n = [hi, lo] := by
  have hlo := lo.toNat_lt
  have hn : n % 256 = lo.toNat := by
    simp only [ntohs] at h
    omega
  simp only [htons, h, hn, List.cons.injEq, ← UInt8.toNat_inj, UInt8.toNat_ofNat', and_true]
  have hhi := hi.toNat_lt
  simp only [ntohs]
  omega

-- for any length, so that the kernel does not come to compute that of a packet
lemma header_append (hi lo virtid : UInt8) (rest : Bytes) (length : ℕ) :
    [hi, lo] ++ virtid :: rest.take length ++ rest.drop length = hi :: lo :: virtid :: rest := by
  simp

lemma getNext_encoded {s t : Bytes} {p : Packet} (h : getNext s = (some p, t)) : s = p.encode ++ t := by
  rcases s with _ | ⟨hi, _ | ⟨lo, _ | ⟨virtid, rest⟩⟩⟩
  case cons.cons.cons =>
    have hfield := ntohs_lt hi lo
    simp only [getNext] at h
    split at h
    · simp at h
    · obtain ⟨hp, rfl⟩ := Prod.mk.inj h
      obtain rfl := Option.some.inj hp
      simp only [Packet.encode, package]
      rw [@htons_ntohs _ hi lo (by rw [List.length_take]; omega)]
      exact (header_append hi lo virtid rest _).symm
  all_goals simp [getNext] at h

def packetFraming : Framing Packet UInt8 where
  encode := Packet.encode
  decode s := match getNext s with
    | (some p, t) => some (p, t)
    | (none, _) => none
  decode_nil := rfl
  decode_length {s a t} h := by
    rcases hs : getNext s with ⟨_ | p, u⟩ <;> simp only [hs, Option.some.injEq, Prod.mk.injEq, reduceCtorEq] at h
    obtain ⟨rfl, rfl⟩ := h
    exact getNext_length hs
  decode_encode a t := by simp
  decode_cut a k hk := by
    rcases hs : getNext (a.encode.take k) with ⟨_ | p, u⟩
    · rfl
    · have := getNext_cut a k hk
      simp [hs] at this

def parsePackets (buffer : Bytes) : List Packet := packetFraming.decodeAll buffer

def payloadOf (virtid : UInt8) (ps : List Packet) : Bytes :=
  (ps.filter (·.virtid = virtid)).flatMap Packet.payload

@[simp] lemma packetFraming_encode (p : Packet) : packetFraming.encode p = p.encode := rfl

@[simp] lemma payloadOf_nil (v : UInt8) : payloadOf v [] = [] := rfl

@[simp] lemma payloadOf_append (v : UInt8) (ps qs : List Packet) :
    payloadOf v (ps ++ qs) = payloadOf v ps ++ payloadOf v qs := by
  simp [payloadOf]

end Turbopump
