import Turbopump.PeerClient.WriteSupervisor

/-! A mirror session: the local write grows its file and flushes it to the mirror, and refused flushes are
taken up by the background. -/

namespace Turbopump

open WriteSupervisor

structure MirrorSession extends Transfer where
  file : Bytes
  params : WriteInstructions
  finished : Bool := false

inductive MirrorAction where
  | append (data : Bytes)
  | flush (isComplete : Bool)
  | resume (found : Bool)

namespace MirrorSession

variable (takes : ℕ → Bool) (capacity : ℕ)

def opened (pack : Write → Bytes) (params : WriteInstructions) (file : Bytes) : MirrorSession where
  conn := openStream takes (reqHeader pack params.toWrite) false
  file := file
  params := params

def append (data : Bytes) (s : MirrorSession) : MirrorSession :=
  -- A finished command takes no more data, and no file grows beyond what `off64_t` counts.
  if s.finished ∨ 2 ^ 63 ≤ s.file.length + data.length then s else { s with file := s.file ++ data }

def flush (isComplete : Bool) (s : MirrorSession) : Bool × MirrorSession :=
  if s.finished then (false, s)
  else
    let params := { s.params with isComplete := isComplete }
    let (stored, transfer) := store takes capacity params ⟨s.file, 0⟩ false s.toTransfer
    (stored, { transfer with
      file := s.file
      params := if isComplete then params else { params with offset := s.file.length }
      finished := isComplete })

def resume (found : Bool) (s : MirrorSession) : Bool × MirrorSession :=
  -- The transfer in front is resumed from a new reader of the file, when the store still has it.
  let (done, transfer) :=
    WriteSupervisor.resume takes capacity (if found then some ⟨s.file, 0⟩ else none) s.toTransfer
  (done, { s with toTransfer := transfer })

def step (s : MirrorSession) : MirrorAction → MirrorSession
  | .append data => s.append data
  | .flush isComplete => (s.flush takes capacity isComplete).2
  | .resume found => (s.resume takes capacity found).2

def completes (s : MirrorSession) : MirrorAction → Bool
  | .append _ => false
  | .flush isComplete => isComplete && (s.flush takes capacity isComplete).1
  | .resume found => !s.transfers.isEmpty && (s.resume takes capacity found).1

/-- The packets taken are a prefix of the header, packets of the file's data from `start` on, and an empty
packet. -/
def InOrder (header : Bytes) (start : ℕ) (s : MirrorSession) : Prop :=
  ∃ data, [] ∉ data ∧ data.flatten <+: s.file.drop start ∧ s.conn.writer.taken <+: header :: data ++ [[]]

def Whole (header : Bytes) (start : ℕ) (s : MirrorSession) : Prop :=
  ∃ data, [] ∉ data ∧ data.flatten = s.file.drop start ∧ s.conn.writer.taken = header :: data ++ [[]]

end MirrorSession

def packets (capacity n : ℕ) : ℕ := (n + capacity - 1) / capacity

lemma packets_zero {capacity : ℕ} (hc : 0 < capacity) : packets capacity 0 = 0 := by
  apply Nat.div_eq_of_lt
  omega

lemma packets_pos {capacity n : ℕ} (hc : 0 < capacity) (hn : 0 < n) :
    packets capacity n = packets capacity (n - capacity) + 1 := by
  by_cases h : capacity ≤ n
  · have hsum : n + capacity - 1 = n - capacity + capacity - 1 + capacity := by omega
    rw [packets, packets, hsum, Nat.add_div_right _ hc]
  · have hrest : n - capacity = 0 := by omega
    have hsum : n + capacity - 1 = n - 1 + capacity := by omega
    rw [hrest, packets_zero hc, packets, hsum, Nat.add_div_right _ hc, Nat.div_eq_of_lt (by omega)]

lemma mul_lt_of_lt_packets {capacity n k : ℕ} (hk : k < packets capacity n) : k * capacity < n := by
  have hle : (k + 1) * capacity ≤ n + capacity - 1 := by
    refine (Nat.mul_le_mul_right _ hk).trans ?_
    rw [Nat.mul_comm]
    exact Nat.mul_div_le _ _
  have hc : 0 < capacity := by
    by_contra h
    obtain rfl : capacity = 0 := by omega
    simp [packets] at hk
  rw [Nat.add_mul, Nat.one_mul] at hle
  omega

variable {takes : ℕ → Bool} {capacity : ℕ}

lemma write_taken {conn : ConnectionWriteStream} (hblocking : conn.blocking = false)
    (htakes : takes conn.writer.offered = true) (buff : Bytes) :
    conn.write takes buff = (buff.length, { conn with
      full := false
      writer := ⟨conn.writer.offered + 1, conn.writer.taken ++ [buff]⟩ }) := by
  simp [ConnectionWriteStream.write, SocketWriter.send, htakes, hblocking]

def ConnectionWriteStream.noted (conn : ConnectionWriteStream) (full : Bool) : Bool :=
  if conn.blocking then conn.full else full

lemma write_eq (conn : ConnectionWriteStream) {buff : Bytes} (hbuff : buff.length ≠ 0) : conn.write takes buff =
    if takes conn.writer.offered then (buff.length, { conn with
      full := conn.noted false
      writer := ⟨conn.writer.offered + 1, conn.writer.taken ++ [buff]⟩ })
    else (0, { conn with full := conn.noted true, writer := ⟨conn.writer.offered + 1, conn.writer.taken⟩ }) := by
  cases hblocking : conn.blocking <;> cases htakes : takes conn.writer.offered <;>
    simp [ConnectionWriteStream.write, SocketWriter.send, ConnectionWriteStream.noted, hblocking, htakes, Ne.symm hbuff]

inductive Looped (takes : ℕ → Bool) (capacity : ℕ) (rest : Bytes) (conn : ConnectionWriteStream) :
    ℕ × ConnectionWriteStream → Prop
  | all (data : List Bytes) (hne : [] ∉ data) (hdata : data.flatten = rest)
      (htaken : ∀ i < packets capacity rest.length, takes (conn.writer.offered + i) = true) :
      Looped takes capacity rest conn (rest.length,
        { conn with
          full := conn.noted (conn.full && rest.isEmpty)
          writer := ⟨conn.writer.offered + packets capacity rest.length, conn.writer.taken ++ data⟩ })
  | refused (k : ℕ) (data : List Bytes) (hk : k < packets capacity rest.length) (hne : [] ∉ data)
      (hdata : data.flatten = rest.take (k * capacity))
      (htaken : ∀ i < k, takes (conn.writer.offered + i) = true) (hrefused : takes (conn.writer.offered + k) = false) :
      Looped takes capacity rest conn (k * capacity,
        { conn with
          full := conn.noted true
          writer := ⟨conn.writer.offered + k + 1, conn.writer.taken ++ data⟩ })

lemma Looped.cons (hc : 0 < capacity) {rest : Bytes} (hrest : rest ≠ []) {conn : ConnectionWriteStream}
    (htakes : takes conn.writer.offered = true) {r : ℕ × ConnectionWriteStream}
    (h : Looped takes capacity (rest.drop capacity)
      { conn with
        full := conn.noted false
        writer := ⟨conn.writer.offered + 1, conn.writer.taken ++ [rest.take capacity]⟩ } r) :
    Looped takes capacity rest conn ((rest.take capacity).length + r.1, r.2) := by
  have hlength : 0 < rest.length := List.length_pos_of_ne_nil hrest
  have htake : rest.take capacity ≠ [] := by
    intro h
    rcases List.take_eq_nil_iff.1 h with h | h
    · omega
    · exact hrest h
  have hcount : packets capacity rest.length = packets capacity (rest.drop capacity).length + 1 := by
    rw [List.length_drop]
    exact packets_pos hc hlength
  have hfirst {n : ℕ} (h : ∀ i < n, takes (conn.writer.offered + 1 + i) = true) :
      ∀ i < n + 1, takes (conn.writer.offered + i) = true := by
    intro i hi
    cases i with
    | zero => exact htakes
    | succ i =>
      rw [show conn.writer.offered + (i + 1) = conn.writer.offered + 1 + i by omega]
      exact h i (by omega)
  cases h with
  | all data hne hdata htaken =>
    have hwrote : (rest.take capacity).length + (rest.drop capacity).length = rest.length := by
      rw [← List.length_append, List.take_append_drop]
    have hempty : rest.isEmpty = false := List.isEmpty_eq_false_iff.2 hrest
    have h := @Looped.all takes capacity rest conn
      (rest.take capacity :: data) (by simp [hne, Ne.symm htake]) (by simp [hdata])
      (by rw [hcount]; exact hfirst htaken)
    rw [hempty, Bool.and_false, hcount] at h
    rw [hwrote]
    cases hblocking : conn.blocking <;>
      simpa [ConnectionWriteStream.noted, hblocking, Nat.add_assoc, Nat.add_comm 1] using h
  | refused k data hk hne hdata htaken hrefused =>
    have hk' := mul_lt_of_lt_packets hk
    have hfull : (rest.take capacity).length = capacity := by
      rw [List.length_drop] at hk'
      rw [List.length_take]
      omega
    have h := @Looped.refused takes capacity rest conn (k + 1)
      (rest.take capacity :: data) (by omega) (by simp [hne, Ne.symm htake])
      (by rw [List.flatten_cons, hdata, Nat.add_mul, Nat.one_mul, Nat.add_comm, List.take_add]) (hfirst htaken)
      (by rw [← hrefused]; congr 1; simp only; omega)
    have hwrote : (rest.take capacity).length + k * capacity = (k + 1) * capacity := by
      rw [hfull, Nat.add_mul, Nat.one_mul, Nat.add_comm]
    rw [hwrote]
    cases hblocking : conn.blocking <;>
      simpa [ConnectionWriteStream.noted, hblocking, Nat.add_assoc, Nat.add_comm 1, Nat.add_left_comm 1] using h

lemma streamLoop_looped (hc : 0 < capacity) {fuel : ℕ} {bytes : Bytes} {p : ℕ} {conn : ConnectionWriteStream}
    (hfuel : bytes.length - p < fuel) :
    Looped takes capacity (bytes.drop p) conn (streamLoop takes capacity fuel ⟨bytes, p⟩ conn) := by
  induction fuel generalizing p conn with
  | zero => omega
  | succ fuel ih =>
    by_cases hp : bytes.length ≤ p
    · have hrest : bytes.drop p = [] := List.drop_eq_nil_of_le hp
      have hstep : streamLoop takes capacity (fuel + 1) ⟨bytes, p⟩ conn = (0, conn) := by
        simp [streamLoop, FileReader.stream, hrest]
      have h := @Looped.all takes capacity [] conn [] (by simp) rfl (by simp [packets_zero hc])
      rw [hstep, hrest]
      simpa [packets_zero hc, ConnectionWriteStream.noted] using h
    · have hrest : bytes.drop p ≠ [] := by
        rw [Ne, List.drop_eq_nil_iff]
        exact hp
      have hlength : 0 < (bytes.drop p).length := List.length_pos_of_ne_nil hrest
      have hbuff : ((bytes.drop p).take capacity).length ≠ 0 := by
        rw [List.length_take]
        omega
      cases htakes : takes conn.writer.offered with
      | false =>
        have hstep : streamLoop takes capacity (fuel + 1) ⟨bytes, p⟩ conn =
            (0, { conn with full := conn.noted true, writer := ⟨conn.writer.offered + 1, conn.writer.taken⟩ }) := by
          simp only [streamLoop, FileReader.stream, if_neg hbuff, write_eq conn hbuff, htakes, Bool.false_eq_true,
            lt_irrefl, if_false]
        have h := @Looped.refused takes capacity (bytes.drop p) conn 0 []
          (by rw [packets_pos hc hlength]; omega) (by simp) (by simp) (by simp) htakes
        rw [hstep]
        simpa using h
      | true =>
        let sent : ConnectionWriteStream := { conn with
          full := conn.noted false
          writer := ⟨conn.writer.offered + 1, conn.writer.taken ++ [(bytes.drop p).take capacity]⟩ }
        have hstep : streamLoop takes capacity (fuel + 1) ⟨bytes, p⟩ conn =
            let r := streamLoop takes capacity fuel ⟨bytes, p + ((bytes.drop p).take capacity).length⟩ sent
            (((bytes.drop p).take capacity).length + r.1, r.2) := by
          simp only [streamLoop, FileReader.stream, if_neg hbuff, write_eq conn hbuff, htakes, if_true,
            if_pos (Nat.pos_of_ne_zero hbuff), sent]
        have hnext : bytes.drop (p + ((bytes.drop p).take capacity).length) = (bytes.drop p).drop capacity := by
          rw [← List.drop_drop, List.length_take]
          by_cases h : capacity ≤ (bytes.drop p).length
          · rw [Nat.min_eq_left h]
          · rw [Nat.min_eq_right (by omega), List.drop_length, List.drop_eq_nil_of_le (by omega)]
        have h := @ih (p + ((bytes.drop p).take capacity).length) sent (by omega)
        rw [hstep]
        apply Looped.cons hc hrest htakes
        simpa only [hnext] using h

inductive Streamed (takes : ℕ → Bool) (capacity : ℕ) (rest : Bytes) (conn : ConnectionWriteStream) :
    ℕ × ConnectionWriteStream → Prop
  | all (data : List Bytes) (hne : [] ∉ data) (hdata : data.flatten = rest)
      (htaken : ∀ i < packets capacity rest.length, takes (conn.writer.offered + i) = true) :
      Streamed takes capacity rest conn (rest.length,
        { conn with
          full := conn.full && rest.isEmpty
          writer := ⟨conn.writer.offered + packets capacity rest.length, conn.writer.taken ++ data⟩ })
  | refused (k : ℕ) (data : List Bytes) (hk : k < packets capacity rest.length) (hne : [] ∉ data)
      (hdata : data.flatten = rest.take (k * capacity))
      (htaken : ∀ i < k, takes (conn.writer.offered + i) = true) (hrefused : takes (conn.writer.offered + k) = false) :
      Streamed takes capacity rest conn (k * capacity,
        { conn with full := true, writer := ⟨conn.writer.offered + k + 1, conn.writer.taken ++ data⟩ })

lemma streamLoop_cases (hc : 0 < capacity) {fuel : ℕ} {contents : FileReader} {conn : ConnectionWriteStream}
    (hblocking : conn.blocking = false) (hfuel : contents.contents.length - contents.position < fuel) :
    Streamed takes capacity (contents.contents.drop contents.position) conn
      (streamLoop takes capacity fuel contents conn) := by
  have hloop := @streamLoop_looped takes capacity hc fuel contents.contents contents.position conn hfuel
  generalize streamLoop takes capacity fuel contents conn = r at hloop ⊢
  have hnoted (full : Bool) : conn.noted full = full := by simp [ConnectionWriteStream.noted, hblocking]
  cases hloop with
  | all data hne hdata htaken =>
    rw [hnoted]
    exact .all data hne hdata htaken
  | refused k data hk hne hdata htaken hrefused =>
    rw [hnoted]
    exact .refused k data hk hne hdata htaken hrefused

namespace MirrorSession

/-- A call that offers `n` bytes is not refused after 2^31 of them, and a call that offers all of the data of a
complete write has its empty packet taken. -/
structure GoesThrough (takes : ℕ → Bool) (capacity n : ℕ) (isComplete : Bool) (conn : ConnectionWriteStream) :
    Prop where
  counted : ∀ k < packets capacity n, (∀ i < k, takes (conn.writer.offered + i) = true) →
    takes (conn.writer.offered + k) = false → k * capacity < 2 ^ 31
  ended : isComplete = true → (∀ i < packets capacity n, takes (conn.writer.offered + i) = true) →
    takes (conn.writer.offered + packets capacity n) = true

/-- The calls that reach the connection go through, and a resumed transfer finds its file. -/
def Meets (takes : ℕ → Bool) (capacity : ℕ) (s : MirrorSession) : MirrorAction → Prop
  | .append _ => True
  | .flush isComplete => s.finished = false → s.conn.background = false →
    GoesThrough takes capacity (s.file.length - s.params.offset) isComplete s.conn
  | .resume found => ∀ write ∈ s.transfers.head?, found = true ∧
    GoesThrough takes capacity (s.file.length - write.offset) true s.conn

def Sent (header : Bytes) (start e : ℕ) (file : Bytes) (tail taken : List Bytes) : Prop :=
  ∃ data, [] ∉ data ∧ data.flatten = (file.take e).drop start ∧ taken = header :: data ++ tail

variable {header file : Bytes} {start e : ℕ} {taken : List Bytes}

lemma Sent.append {tail : List Bytes} (h : Sent header start e file tail taken) (he : e ≤ file.length)
    (data : Bytes) : Sent header start e (file ++ data) tail taken := by
  rwa [Sent, List.take_append_of_le_length he]

lemma Sent.more {e' : ℕ} (h : Sent header start e file [] taken) (hs : start ≤ e) (he : e ≤ e')
    (hfile : e' ≤ file.length) {data : List Bytes} (hne : [] ∉ data)
    (hdata : data.flatten = (file.drop e).take (e' - e)) (tail : List Bytes) :
    Sent header start e' file tail (taken ++ data ++ tail) := by
  obtain ⟨before, hb, hflat, rfl⟩ := h
  refine ⟨before ++ data, by simp [hb, hne], ?_, by simp⟩
  have htake : file.take e' = file.take e ++ (file.drop e).take (e' - e) := by
    rw [← List.take_add, Nat.add_sub_cancel' he]
  rw [htake, List.drop_append_of_le_length (by rw [List.length_take]; omega), List.flatten_append, hflat, hdata]

lemma rewrite_offset {write : WriteInstructions} {n : ℕ} (hn : n < 2 ^ 31) (hoffset : write.offset + n < 2 ^ 63) :
    (rewrite write n).offset = write.offset + n := by
  simp only [rewrite, toInt]
  omega

lemma store_cases (hc : 0 < capacity) {write : WriteInstructions} {background : Bool} {t : Transfer}
    (hblocking : t.conn.blocking = false) (hlive : t.conn.background = true → background = true)
    (hstart : start ≤ write.offset) (hoffset : write.offset ≤ file.length) (hfile : file.length < 2 ^ 63)
    (hsent : Sent header start write.offset file [] t.conn.writer.taken)
    (hgo : GoesThrough takes capacity (file.length - write.offset) write.isComplete t.conn) :
    ∃ r, store takes capacity write ⟨file, 0⟩ background t = r ∧ r.2.conn.blocking = false ∧
      ((r.1 = false ∧ r.2.conn.background = true ∧ ∃ next, r.2.transfers = t.transfers ++ [next] ∧
          next.isComplete = true ∧ start ≤ next.offset ∧ next.offset ≤ file.length ∧
          Sent header start next.offset file [] r.2.conn.writer.taken) ∨
        (r.1 = true ∧ r.2.conn.background = t.conn.background ∧ r.2.transfers = t.transfers ∧
          Sent header start file.length file (if write.isComplete then [[]] else []) r.2.conn.writer.taken)) := by
  have hreader : (if 0 < write.offset then FileReader.setPosition write.offset ⟨file, 0⟩ else some ⟨file, 0⟩) =
      some ⟨file, write.offset⟩ := by
    split
    · rw [FileReader.setPosition, if_pos (by omega)]
    · rw [show write.offset = 0 by omega]
  have hbackground : ¬(t.conn.background ∧ !background) := by
    rintro ⟨h, h'⟩
    simp [hlive h] at h'
  have hloop := @streamLoop_cases takes capacity hc (file.length + 1) ⟨file, write.offset⟩ t.conn hblocking
    (by simp only; omega)
  refine ⟨_, rfl, ?_⟩
  simp only [store, if_neg hbackground, hreader]
  generalize streamLoop takes capacity (file.length + 1) ⟨file, write.offset⟩ t.conn = r at hloop ⊢
  have hrest : (file.drop write.offset).length = file.length - write.offset := List.length_drop
  cases hloop with
  | all data hne hdata htaken =>
    simp only [hrest] at htaken ⊢
    have hdata' : data.flatten = (file.drop write.offset).take (file.length - write.offset) := by
      rw [← hrest, List.take_length]
      exact hdata
    have hmore := hsent.more hstart hoffset le_rfl hne hdata'
    by_cases hfull : (t.conn.full && (file.drop write.offset).isEmpty) = true
    · have hempty : file.length - write.offset = 0 := by
        rw [Bool.and_eq_true, List.isEmpty_iff, List.drop_eq_nil_iff] at hfull
        omega
      have hnext : (rewrite write (file.length - write.offset)).offset = file.length := by
        rw [rewrite_offset (by omega) (by omega)]
        omega
      rw [if_pos hfull]
      refine ⟨hblocking, .inl ⟨rfl, rfl, _, rfl, rfl, ?_⟩⟩
      rw [hnext]
      exact ⟨by omega, le_rfl, by simpa using hmore []⟩
    · rw [if_neg hfull]
      cases hcomplete : write.isComplete with
      | false =>
        exact ⟨hblocking, .inr ⟨rfl, rfl, rfl, by simpa using hmore []⟩⟩
      | true =>
        rw [if_pos rfl, @write_taken takes { t.conn with
          full := t.conn.full && (file.drop write.offset).isEmpty
          writer := ⟨_, _⟩ } hblocking (hgo.ended hcomplete htaken)]
        exact ⟨hblocking, .inr ⟨rfl, rfl, rfl, hmore [[]]⟩⟩
  | refused k data hk hne hdata htaken hrefused =>
    rw [hrest] at hk
    have hcount := hgo.counted k hk htaken hrefused
    have hle := mul_lt_of_lt_packets hk
    have hnext : (rewrite write (k * capacity)).offset = write.offset + k * capacity :=
      rewrite_offset hcount (by omega)
    rw [if_pos rfl]
    refine ⟨hblocking, .inl ⟨rfl, rfl, _, rfl, rfl, ?_⟩⟩
    rw [hnext]
    have hdata' : data.flatten = (file.drop write.offset).take (write.offset + k * capacity - write.offset) := by
      rw [Nat.add_sub_cancel_left]
      exact hdata
    have hmore := hsent.more hstart (Nat.le_add_right _ _) (by omega) hne hdata' []
    exact ⟨by omega, by omega, by simpa using hmore⟩

inductive Phase (header : Bytes) (start : ℕ) (s : MirrorSession) : Prop
  | sending (hfinished : s.finished = false) (hbackground : s.conn.background = false) (htransfers : s.transfers = [])
      (hstart : start ≤ s.params.offset) (hoffset : s.params.offset ≤ s.file.length)
      (hsent : Sent header start s.params.offset s.file [] s.conn.writer.taken)
  | waiting (next : WriteInstructions) (hbackground : s.conn.background = true) (htransfers : s.transfers = [next])
      (hcomplete : next.isComplete = true) (hstart : start ≤ next.offset) (hoffset : next.offset ≤ s.file.length)
      (hsent : Sent header start next.offset s.file [] s.conn.writer.taken)
  | ended (e : ℕ) (hclosed : s.finished = true ∨ s.conn.background = true) (htransfers : s.transfers = [])
      (he : e ≤ s.file.length) (hsent : Sent header start e s.file [[]] s.conn.writer.taken)

structure Underway (header : Bytes) (start : ℕ) (s : MirrorSession) : Prop where
  phase : Phase header start s
  short : s.file.length < 2 ^ 63
  blocking : s.conn.blocking = false

variable {s : MirrorSession}

lemma Sent.inOrder {tail : List Bytes} (h : Sent header start e s.file tail s.conn.writer.taken)
    (htail : tail <+: [[]]) : s.InOrder header start := by
  obtain ⟨data, hne, hdata, htaken⟩ := h
  refine ⟨data, hne, ?_, ?_⟩
  · rw [hdata]
    exact (List.take_prefix _ _).drop _
  · rw [htaken]
    exact List.prefix_append_right_inj _ |>.2 htail

lemma Underway.inOrder (h : s.Underway header start) : s.InOrder header start := by
  cases h.phase with
  | sending _ _ _ _ _ hsent => exact hsent.inOrder List.nil_prefix
  | waiting _ _ _ _ _ _ hsent => exact hsent.inOrder List.nil_prefix
  | ended _ _ _ _ hsent => exact hsent.inOrder List.prefix_rfl

lemma Sent.whole (h : Sent header start s.file.length s.file [[]] s.conn.writer.taken) : s.Whole header start := by
  obtain ⟨data, hne, hdata, htaken⟩ := h
  exact ⟨data, hne, by rw [hdata, List.take_length], htaken⟩

lemma Underway.append (h : s.Underway header start) (data : Bytes) : (s.append data).Underway header start := by
  rw [MirrorSession.append]
  split
  · exact h
  · have hfile : s.file.length ≤ (s.file ++ data).length := by simp
    refine ⟨?_, by simp only [List.length_append]; omega, h.blocking⟩
    cases h.phase with
    | sending hfinished hbackground htransfers hstart hoffset hsent =>
      exact .sending hfinished hbackground htransfers hstart (hoffset.trans hfile) (hsent.append hoffset data)
    | waiting next hbackground htransfers hcomplete hstart hoffset hsent =>
      exact .waiting next hbackground htransfers hcomplete hstart (hoffset.trans hfile) (hsent.append hoffset data)
    | ended e hclosed htransfers he hsent =>
      exact .ended e hclosed htransfers (he.trans hfile) (hsent.append he data)

lemma store_of_background {write : WriteInstructions} {contents : FileReader} {t : Transfer}
    (h : t.conn.background = true) : store takes capacity write contents false t = (false, t) := by
  rw [store, if_pos (by simp [h])]

lemma Underway.flush (hc : 0 < capacity) (h : s.Underway header start) {isComplete : Bool}
    (hmeets : s.Meets takes capacity (.flush isComplete)) :
    (s.flush takes capacity isComplete).2.Underway header start ∧
      ((isComplete && (s.flush takes capacity isComplete).1) = true →
        (s.flush takes capacity isComplete).2.Whole header start) := by
  by_cases hfinished : s.finished = true
  · simp only [MirrorSession.flush, if_pos hfinished]
    exact ⟨h, by simp⟩
  rw [Bool.not_eq_true] at hfinished
  cases hbackground : s.conn.background with
  | true =>
    simp only [MirrorSession.flush, hfinished, store_of_background hbackground]
    refine ⟨⟨?_, h.short, h.blocking⟩, by simp⟩
    cases h.phase with
    | sending _ hbackground' => simp [hbackground] at hbackground'
    | waiting next hbackground htransfers hcomplete hstart hoffset hsent =>
      exact .waiting next hbackground htransfers hcomplete hstart hoffset hsent
    | ended e hclosed htransfers he hsent => exact .ended e (.inr hbackground) htransfers he hsent
  | false =>
    cases h.phase with
    | waiting _ hbackground' => simp [hbackground] at hbackground'
    | ended _ hclosed => simp [hbackground, hfinished] at hclosed
    | sending _ _ htransfers hstart hoffset hsent =>
      obtain ⟨⟨stored, t⟩, hr, hblocking, hcases⟩ := @store_cases takes capacity header s.file start hc
        { s.params with isComplete := isComplete } false s.toTransfer h.blocking (by simp [hbackground]) hstart
        hoffset h.short hsent (hmeets hfinished hbackground)
      simp only [MirrorSession.flush, hfinished, hr]
      rcases hcases with ⟨rfl, hb, next, ht, hcomplete, hnext, hnext', hsent'⟩ | ⟨rfl, hb, ht, hsent'⟩
      · rw [htransfers] at ht
        exact ⟨⟨.waiting next hb ht hcomplete hnext hnext' hsent', h.short, hblocking⟩, by simp⟩
      · cases isComplete with
        | false =>
          exact ⟨⟨.sending rfl (hb.trans hbackground) (ht.trans htransfers) (hstart.trans hoffset) le_rfl hsent',
            h.short, hblocking⟩, by simp⟩
        | true =>
          exact ⟨⟨.ended _ (.inl rfl) (ht.trans htransfers) le_rfl hsent', h.short, hblocking⟩,
            fun _ => Sent.whole hsent'⟩

lemma Underway.resume (hc : 0 < capacity) (h : s.Underway header start) {found : Bool}
    (hmeets : s.Meets takes capacity (.resume found)) :
    (s.resume takes capacity found).2.Underway header start ∧
      ((!s.transfers.isEmpty && (s.resume takes capacity found).1) = true →
        (s.resume takes capacity found).2.Whole header start) := by
  have hidle (htransfers : s.transfers = []) : s.resume takes capacity found = (true, s) := by
    simp [MirrorSession.resume, WriteSupervisor.resume, htransfers]
  cases h.phase with
  | sending _ _ htransfers => exact ⟨by rw [hidle htransfers]; exact h, by simp [htransfers]⟩
  | ended _ _ htransfers => exact ⟨by rw [hidle htransfers]; exact h, by simp [htransfers]⟩
  | waiting next hbackground htransfers hcomplete hstart hoffset hsent =>
    obtain ⟨rfl, hgo⟩ := hmeets next (by rw [htransfers]; rfl)
    obtain ⟨⟨done, t⟩, hr, hblocking, hcases⟩ := @store_cases takes capacity header s.file start hc next true
      { s.toTransfer with transfers := [] } h.blocking (fun _ => rfl) hstart hoffset h.short hsent
      (by rw [hcomplete]; exact hgo)
    simp only [MirrorSession.resume, WriteSupervisor.resume, htransfers, if_true, hr]
    rcases hcases with ⟨rfl, hb, next', ht, hcomplete', hnext, hnext', hsent'⟩ | ⟨rfl, hb, ht, hsent'⟩
    · exact ⟨⟨.waiting next' hb ht hcomplete' hnext hnext' hsent', h.short, hblocking⟩, by simp⟩
    · rw [hcomplete] at hsent'
      exact ⟨⟨.ended _ (.inr (hb.trans hbackground)) ht le_rfl hsent', h.short, hblocking⟩,
        fun _ => Sent.whole hsent'⟩

lemma Underway.step (hc : 0 < capacity) (h : s.Underway header start) {a : MirrorAction}
    (hmeets : s.Meets takes capacity a) :
    (s.step takes capacity a).Underway header start ∧
      (s.completes takes capacity a = true → (s.step takes capacity a).Whole header start) := by
  cases a with
  | append data => exact ⟨h.append data, by simp [completes]⟩
  | flush isComplete => exact h.flush hc hmeets
  | resume found => exact h.resume hc hmeets

lemma opened_underway {pack : Write → Bytes} {params : WriteInstructions} (hoffset : params.offset ≤ file.length)
    (hfile : file.length < 2 ^ 63) (hheader : takes 0 = true) :
    (opened takes pack params file).Underway (reqHeader pack params.toWrite) params.offset := by
  have hconn : (opened takes pack params file).conn = { writer := ⟨1, [reqHeader pack params.toWrite]⟩ } := by
    simp [opened, openStream, ConnectionWriteStream.write, SocketWriter.send, hheader]
  refine ⟨.sending rfl (by rw [hconn]) rfl le_rfl hoffset ⟨[], by simp, ?_, by rw [hconn]; rfl⟩, hfile, by rw [hconn]⟩
  rw [List.flatten_nil, eq_comm, List.drop_eq_nil_iff, List.length_take]
  exact min_le_left _ _

theorem taken_in_order {pack : Write → Bytes} {params : WriteInstructions} {actions : List MirrorAction}
    (hc : 0 < capacity) (hoffset : params.offset ≤ file.length) (hfile : file.length < 2 ^ 63)
    (hheader : takes 0 = true)
    (h : Along (step takes capacity) (Meets takes capacity) (opened takes pack params file) actions) :
    ∀ before, before <+: actions →
      let s := before.foldl (step takes capacity) (opened takes pack params file)
      s.InOrder (reqHeader pack params.toWrite) params.offset ∧
        ∀ a, before ++ [a] <+: actions → s.completes takes capacity a = true →
          (s.step takes capacity a).Whole (reqHeader pack params.toWrite) params.offset := by
  intro before hbefore
  obtain ⟨rest, rfl⟩ := hbefore
  obtain ⟨hb, hrest⟩ := (along_append _).1 h
  have hunder := hb.invariant (I := Underway (reqHeader pack params.toWrite) params.offset)
    (fun s a hs hm => (Underway.step hc hs hm).1) (opened_underway hoffset hfile hheader)
  refine ⟨hunder.inOrder, fun a ha hcompletes => ?_⟩
  obtain ⟨more, hmore⟩ := (List.prefix_append_right_inj before).1 ha
  rw [← hmore] at hrest
  exact (Underway.step hc hunder hrest.1).2 hcompletes

def resumed (before : List MirrorAction) : MirrorSession :=
  before.foldl (step (fun i => decide (i ≠ 2)) 4) (opened (fun i => decide (i ≠ 2)) (fun _ => [7]) { name := [107] } [])

theorem taken_in_order_example :
    (resumed [.append [1, 2, 3, 4, 5, 6], .flush true]).InOrder (reqHeader (fun _ => [7]) { name := [107] }) 0 ∧
    (resumed [.append [1, 2, 3, 4, 5, 6], .flush true, .resume true]).Whole
      (reqHeader (fun _ => [7]) { name := [107] }) 0 := by
  have hrun : Along (step (fun i => decide (i ≠ 2)) 4) (Meets (fun i => decide (i ≠ 2)) 4)
      (opened (fun i => decide (i ≠ 2)) (fun _ => [7]) { name := [107] } [])
      [.append [1, 2, 3, 4, 5, 6], .flush true, .resume true] := by
    refine ⟨trivial, ?_, ?_, trivial⟩
    · intro _ _
      exact ⟨by decide, by decide⟩
    · intro write hwrite
      obtain rfl : rewrite { name := [107], isComplete := true } 4 = write := Option.some.inj hwrite
      exact ⟨rfl, by decide, by decide⟩
  obtain ⟨horder, hwhole⟩ := @taken_in_order (fun i => decide (i ≠ 2)) 4 [] (fun _ => [7]) { name := [107] } _
    (by decide) (by decide) (by decide) (by decide) hrun [.append [1, 2, 3, 4, 5, 6], .flush true] ⟨_, rfl⟩
  exact ⟨horder, hwhole (.resume true) (List.prefix_refl _) (by decide)⟩

theorem not_in_order_when_header_refused :
    ¬((opened (fun i => decide (i ≠ 0)) (fun _ => [7]) { name := [107] } [104, 105]).flush
      (fun i => decide (i ≠ 0)) 4 false).2.InOrder (reqHeader (fun _ => [7]) { name := [107] }) 0 := by
  rintro ⟨data, -, -, hpre⟩
  have htaken : ((opened (fun i => decide (i ≠ 0)) (fun _ => [7]) { name := [107] } [104, 105]).flush
      (fun i => decide (i ≠ 0)) 4 false).2.conn.writer.taken = [[104, 105]] := by
    decide
  rw [htaken] at hpre
  have hheader := (List.cons_prefix_cons.1 hpre).1
  simp [reqHeader, package, htons] at hheader

end MirrorSession

end Turbopump
