import Turbopump.PeerClient.MirrorSessions

/-! The data that a connection takes of a file: one run of its bytes, whatever is refused and resumed. -/

namespace Turbopump

open WriteSupervisor

namespace MirrorSession

variable (takes : ℕ → Bool) (capacity : ℕ)

def openedOn (blocking : Bool) (pack : Write → Bytes) (params : WriteInstructions) (file : Bytes) : MirrorSession where
  conn := openStream takes (reqHeader pack params.toWrite) blocking
  file := file
  params := params

def dataTaken (opening s : MirrorSession) : Bytes :=
  (s.conn.writer.taken.drop opening.conn.writer.taken.length).flatten

def Contiguous (opening : MirrorSession) (start : ℕ) (s : MirrorSession) : Prop :=
  ∃ e, dataTaken opening s = (s.file.take e).drop start

/-- Of the packets of `n` bytes none is refused on a connection that blocks, and none after 2^31 bytes. -/
def Counted (n : ℕ) (conn : ConnectionWriteStream) : Prop :=
  ∀ k < packets capacity n, (∀ i < k, takes (conn.writer.offered + i) = true) →
    takes (conn.writer.offered + k) = false → conn.blocking = false ∧ k * capacity < 2 ^ 31

def InCount (s : MirrorSession) : MirrorAction → Prop
  | .append _ => True
  | .flush _ => s.finished = false → s.conn.background = false →
    Counted takes capacity (s.file.length - s.params.offset) s.conn
  | .resume found => ∀ write ∈ s.transfers.head?, found = true →
    Counted takes capacity (s.file.length - write.offset) s.conn

variable {takes capacity} {head : List Bytes} {file : Bytes} {start e : ℕ} {taken : List Bytes}

def Run (head : List Bytes) (start e : ℕ) (file : Bytes) (taken : List Bytes) : Prop :=
  ∃ data, taken = head ++ data ∧ data.flatten = (file.take e).drop start

lemma Run.append (h : Run head start e file taken) (he : e ≤ file.length) (data : Bytes) :
    Run head start e (file ++ data) taken := by
  rwa [Run, List.take_append_of_le_length he]

lemma Run.more {e' : ℕ} (h : Run head start e file taken) (hs : start ≤ e) (he : e ≤ e') (hfile : e ≤ file.length)
    {data : List Bytes} (hdata : data.flatten = (file.drop e).take (e' - e)) :
    Run head start e' file (taken ++ data) := by
  obtain ⟨before, rfl, hflat⟩ := h
  refine ⟨before ++ data, by rw [List.append_assoc], ?_⟩
  have htake : file.take e' = file.take e ++ (file.drop e).take (e' - e) := by
    rw [← List.take_add, Nat.add_sub_cancel' he]
  rw [htake, List.drop_append_of_le_length (by rw [List.length_take]; omega), List.flatten_append, hflat, hdata]

lemma Run.empty (h : Run head start e file taken) (b : Bool) :
    Run head start e file (taken ++ if b then [[]] else []) := by
  obtain ⟨data, rfl, hflat⟩ := h
  refine ⟨data ++ if b then [[]] else [], by rw [List.append_assoc], ?_⟩
  cases b <;> simpa using hflat

lemma write_empty (conn : ConnectionWriteStream) : (conn.write takes []).2 = { conn with
    full := conn.noted false
    writer := ⟨conn.writer.offered + 1, conn.writer.taken ++ if takes conn.writer.offered then [[]] else []⟩ } := by
  cases hblocking : conn.blocking <;> cases htakes : takes conn.writer.offered <;>
    simp [ConnectionWriteStream.write, SocketWriter.send, ConnectionWriteStream.noted, hblocking, htakes]

structure Cut (capacity : ℕ) (data : List Bytes) (bytes : Bytes) : Prop where
  nonempty : [] ∉ data
  small : ∀ d ∈ data, d.length ≤ capacity
  flatten : data.flatten = bytes

inductive Stored (takes : ℕ → Bool) (capacity : ℕ) (write : WriteInstructions) (file : Bytes) (t t' : Transfer) : Prop
  | handed (next : WriteInstructions) (data : List Bytes) (hblocking : t'.conn.blocking = false)
      (hbackground : t'.conn.background = true) (htransfers : t'.transfers = t.transfers ++ [next])
      (hcomplete : next.isComplete = true) (hoffset : write.offset ≤ next.offset) (hfile : next.offset ≤ file.length)
      (hcut : Cut capacity data ((file.drop write.offset).take (next.offset - write.offset)))
      (htaken : t'.conn.writer.taken = t.conn.writer.taken ++ data)
  | streamed (data : List Bytes) (ended : Bool) (hblocks : t'.conn.blocking = true → t'.conn.full = false)
      (hbackground : t'.conn.background = t.conn.background) (htransfers : t'.transfers = t.transfers)
      (hcut : Cut capacity data (file.drop write.offset))
      (hended : ended = true → write.isComplete = true ∧
        ∀ k ≤ packets capacity (file.length - write.offset), takes (t.conn.writer.offered + k) = true)
      (htaken : t'.conn.writer.taken = t.conn.writer.taken ++ data ++ if ended then [[]] else [])

lemma streamLoop_small (fuel : ℕ) (contents : FileReader) (conn : ConnectionWriteStream) :
    ∃ more, (streamLoop takes capacity fuel contents conn).2.writer.taken = conn.writer.taken ++ more ∧
      ∀ d ∈ more, d.length ≤ capacity := by
  induction fuel generalizing contents conn with
  | zero => exact ⟨[], by simp [streamLoop], by simp⟩
  | succ fuel ih =>
    by_cases hbuff : ((contents.contents.drop contents.position).take capacity).length = 0
    · exact ⟨[], by simp [streamLoop, FileReader.stream, hbuff], by simp⟩
    · simp only [streamLoop, FileReader.stream, if_neg hbuff, write_eq conn hbuff]
      cases htakes : takes conn.writer.offered with
      | false =>
        simp only [Bool.false_eq_true, if_false, lt_irrefl]
        exact ⟨[], by simp, by simp⟩
      | true =>
        simp only [if_true, if_pos (Nat.pos_of_ne_zero hbuff)]
        obtain ⟨more, hmore, hsmall⟩ := ih { contents with
          position := contents.position + ((contents.contents.drop contents.position).take capacity).length }
          { conn with
            full := conn.noted false
            writer := ⟨conn.writer.offered + 1,
              conn.writer.taken ++ [(contents.contents.drop contents.position).take capacity]⟩ }
        refine ⟨(contents.contents.drop contents.position).take capacity :: more, ?_, ?_⟩
        · rw [hmore, List.append_assoc, List.singleton_append]
        · exact List.forall_mem_cons.2 ⟨List.length_take_le _ _, hsmall⟩

lemma store_stored (hc : 0 < capacity) {write : WriteInstructions} {background : Bool} {t : Transfer}
    (hlive : t.conn.background = true → background = true) (hblocks : t.conn.blocking = true → t.conn.full = false)
    (hoffset : write.offset ≤ file.length) (hfile : file.length < 2 ^ 63)
    (hcount : Counted takes capacity (file.length - write.offset) t.conn) :
    Stored takes capacity write file t (store takes capacity write ⟨file, 0⟩ background t).2 := by
  have hreader : (if 0 < write.offset then FileReader.setPosition write.offset ⟨file, 0⟩ else some ⟨file, 0⟩) =
      some ⟨file, write.offset⟩ := by
    split
    · rw [FileReader.setPosition, if_pos (by omega)]
    · rw [show write.offset = 0 by omega]
  have hbackground : ¬(t.conn.background ∧ !background) := by
    rintro ⟨h, h'⟩
    simp [hlive h] at h'
  have hloop := @streamLoop_looped takes capacity hc (file.length + 1) file write.offset t.conn (by omega)
  have hpieces := @streamLoop_small takes capacity (file.length + 1) ⟨file, write.offset⟩ t.conn
  simp only [store, if_neg hbackground, hreader]
  generalize streamLoop takes capacity (file.length + 1) ⟨file, write.offset⟩ t.conn = r at hloop hpieces ⊢
  obtain ⟨more, hmore, hsmall⟩ := hpieces
  have hrest : (file.drop write.offset).length = file.length - write.offset := List.length_drop
  cases hloop with
  | all data hne hdata htaken =>
    obtain rfl : data = more := List.append_cancel_left hmore
    have hcut : Cut capacity data (file.drop write.offset) := ⟨hne, hsmall, hdata⟩
    have hstays (hblocking : t.conn.blocking = true) (full : Bool) : t.conn.noted full = false := by
      rw [ConnectionWriteStream.noted, if_pos hblocking, hblocks hblocking]
    by_cases hfull : t.conn.noted (t.conn.full && (file.drop write.offset).isEmpty) = true
    · -- there was nothing to send, and an earlier packet had been refused
      have hblocking : t.conn.blocking = false := by
        rw [← Bool.not_eq_true]
        intro hblocking
        rw [hstays hblocking] at hfull
        cases hfull
      have hempty : file.length - write.offset = 0 := by
        rw [ConnectionWriteStream.noted, hblocking, if_neg Bool.false_ne_true, Bool.and_eq_true, List.isEmpty_iff,
          List.drop_eq_nil_iff] at hfull
        omega
      have hnext : (rewrite write (file.drop write.offset).length).offset = file.length := by
        rw [hrest, rewrite_offset (by omega) (by omega)]
        omega
      rw [if_pos hfull]
      refine .handed _ data hblocking rfl rfl rfl ?_ ?_ ?_ rfl
      · rw [hnext]
        exact hoffset
      · rw [hnext]
      · rw [hnext, ← hrest, List.take_length]
        exact hcut
    · rw [if_neg hfull]
      cases hcomplete : write.isComplete with
      | false =>
        exact .streamed data false (fun hblocking => hstays hblocking _) rfl rfl hcut (by simp) (by simp)
      | true =>
        rw [if_pos rfl, write_empty]
        refine .streamed data (takes (t.conn.writer.offered + packets capacity (file.drop write.offset).length))
          (fun hblocking => if_pos hblocking |>.trans (hstays hblocking _)) rfl rfl hcut ?_ rfl
        intro hended
        refine ⟨hcomplete, fun k hk => ?_⟩
        rw [← hrest] at hk
        rcases hk.lt_or_eq with hlt | rfl
        · exact htaken k hlt
        · exact hended
  | refused k data hk hne hdata htaken hrefused =>
    obtain rfl : data = more := List.append_cancel_left hmore
    rw [hrest] at hk
    obtain ⟨hblocking, hshort⟩ := hcount k hk htaken hrefused
    have hle := mul_lt_of_lt_packets hk
    have hnext : (rewrite write (k * capacity)).offset = write.offset + k * capacity :=
      rewrite_offset hshort (by omega)
    have hfull : t.conn.noted true = true := by simp [ConnectionWriteStream.noted, hblocking]
    rw [if_pos hfull]
    refine .handed _ data hblocking rfl rfl rfl ?_ ?_ ⟨hne, hsmall, ?_⟩ rfl
    · rw [hnext]
      exact Nat.le_add_right _ _
    · rw [hnext]
      omega
    · rw [hnext, Nat.add_sub_cancel_left]
      exact hdata

lemma store_run (hc : 0 < capacity) {write : WriteInstructions} {background : Bool} {t : Transfer}
    (hlive : t.conn.background = true → background = true) (hblocks : t.conn.blocking = true → t.conn.full = false)
    (hstart : start ≤ write.offset) (hoffset : write.offset ≤ file.length) (hfile : file.length < 2 ^ 63)
    (hrun : Run head start write.offset file t.conn.writer.taken)
    (hcount : Counted takes capacity (file.length - write.offset) t.conn) :
    ∃ r, store takes capacity write ⟨file, 0⟩ background t = r ∧
      (r.2.conn.blocking = true → r.2.conn.full = false) ∧
      ((r.2.conn.background = true ∧ ∃ next, r.2.transfers = t.transfers ++ [next] ∧ start ≤ next.offset ∧
          next.offset ≤ file.length ∧ Run head start next.offset file r.2.conn.writer.taken) ∨
        (r.2.conn.background = t.conn.background ∧ r.2.transfers = t.transfers ∧
          Run head start file.length file r.2.conn.writer.taken)) := by
  refine ⟨_, rfl, ?_⟩
  cases store_stored hc hlive hblocks hoffset hfile hcount with
  | handed next data hblocking hbackground htransfers hcomplete hle hnext hcut htaken =>
    refine ⟨by simp [hblocking], .inl ⟨hbackground, next, htransfers, hstart.trans hle, hnext, ?_⟩⟩
    rw [htaken]
    exact hrun.more hstart hle hoffset hcut.flatten
  | streamed data ended hblocks' hbackground htransfers hcut hended htaken =>
    refine ⟨hblocks', .inr ⟨hbackground, htransfers, ?_⟩⟩
    rw [htaken]
    refine (hrun.more hstart hoffset hoffset ?_).empty _
    rw [hcut.flatten, ← List.length_drop, List.take_length]

inductive Stage (head : List Bytes) (start : ℕ) (s : MirrorSession) : Prop
  | sending (hbackground : s.conn.background = false) (htransfers : s.transfers = [])
      (hstart : start ≤ s.params.offset) (hoffset : s.params.offset ≤ s.file.length)
      (hrun : Run head start s.params.offset s.file s.conn.writer.taken)
  | waiting (next : WriteInstructions) (hbackground : s.conn.background = true) (htransfers : s.transfers = [next])
      (hstart : start ≤ next.offset) (hoffset : next.offset ≤ s.file.length)
      (hrun : Run head start next.offset s.file s.conn.writer.taken)
  | closed (e : ℕ) (hclosed : s.finished = true ∨ s.conn.background = true) (htransfers : s.transfers = [])
      (he : e ≤ s.file.length) (hrun : Run head start e s.file s.conn.writer.taken)

structure Running (head : List Bytes) (start : ℕ) (s : MirrorSession) : Prop where
  stage : Stage head start s
  short : s.file.length < 2 ^ 63
  blocks : s.conn.blocking = true → s.conn.full = false

variable {s : MirrorSession}

lemma Running.append (h : s.Running head start) (data : Bytes) : (s.append data).Running head start := by
  rw [MirrorSession.append]
  split
  · exact h
  · have hfile : s.file.length ≤ (s.file ++ data).length := by simp
    refine ⟨?_, by simp only [List.length_append]; omega, h.blocks⟩
    cases h.stage with
    | sending hbackground htransfers hstart hoffset hrun =>
      exact .sending hbackground htransfers hstart (hoffset.trans hfile) (hrun.append hoffset data)
    | waiting next hbackground htransfers hstart hoffset hrun =>
      exact .waiting next hbackground htransfers hstart (hoffset.trans hfile) (hrun.append hoffset data)
    | closed e hclosed htransfers he hrun =>
      exact .closed e hclosed htransfers (he.trans hfile) (hrun.append he data)

lemma Running.flush (hc : 0 < capacity) (h : s.Running head start) {isComplete : Bool}
    (hcount : s.InCount takes capacity (.flush isComplete)) :
    (s.flush takes capacity isComplete).2.Running head start := by
  by_cases hfinished : s.finished = true
  · simp only [MirrorSession.flush, if_pos hfinished]
    exact h
  rw [Bool.not_eq_true] at hfinished
  cases hbackground : s.conn.background with
  | true =>
    simp only [MirrorSession.flush, hfinished, store_of_background hbackground]
    refine ⟨?_, h.short, h.blocks⟩
    cases h.stage with
    | sending hbackground' => simp [hbackground] at hbackground'
    | waiting next hbackground htransfers hstart hoffset hrun =>
      exact .waiting next hbackground htransfers hstart hoffset hrun
    | closed e hclosed htransfers he hrun => exact .closed e (.inr hbackground) htransfers he hrun
  | false =>
    cases h.stage with
    | waiting _ hbackground' => simp [hbackground] at hbackground'
    | closed _ hclosed => simp [hbackground, hfinished] at hclosed
    | sending _ htransfers hstart hoffset hrun =>
      obtain ⟨⟨stored, t⟩, hr, hblocks, hcases⟩ := @store_run takes capacity head s.file start hc
        { s.params with isComplete := isComplete } false s.toTransfer (by simp [hbackground]) h.blocks hstart
        hoffset h.short hrun (hcount hfinished hbackground)
      simp only [MirrorSession.flush, hfinished, hr]
      rcases hcases with ⟨hb, next, ht, hnext, hnext', hrun'⟩ | ⟨hb, ht, hrun'⟩
      · rw [htransfers] at ht
        exact ⟨.waiting next hb ht hnext hnext' hrun', h.short, hblocks⟩
      · cases isComplete with
        | false =>
          exact ⟨.sending (hb.trans hbackground) (ht.trans htransfers) (hstart.trans hoffset) le_rfl hrun', h.short,
            hblocks⟩
        | true => exact ⟨.closed _ (.inl rfl) (ht.trans htransfers) le_rfl hrun', h.short, hblocks⟩

lemma Running.resume (hc : 0 < capacity) (h : s.Running head start) {found : Bool}
    (hcount : s.InCount takes capacity (.resume found)) :
    (s.resume takes capacity found).2.Running head start := by
  have hidle (htransfers : s.transfers = []) : s.resume takes capacity found = (true, s) := by
    simp [MirrorSession.resume, WriteSupervisor.resume, htransfers]
  cases h.stage with
  | sending _ htransfers =>
    rw [hidle htransfers]
    exact h
  | closed _ _ htransfers =>
    rw [hidle htransfers]
    exact h
  | waiting next hbackground htransfers hstart hoffset hrun =>
    cases found with
    | false =>
      -- the store has no such file any more, and the transfer is given up
      simp only [MirrorSession.resume, WriteSupervisor.resume, htransfers, Bool.false_eq_true, if_false]
      exact ⟨.closed _ (.inr hbackground) rfl hoffset hrun, h.short, h.blocks⟩
    | true =>
      obtain ⟨⟨done, t⟩, hr, hblocks, hcases⟩ := @store_run takes capacity head s.file start hc next true
        { s.toTransfer with transfers := [] } (fun _ => rfl) h.blocks hstart hoffset h.short hrun
        (hcount next (by rw [htransfers]; rfl) rfl)
      simp only [MirrorSession.resume, WriteSupervisor.resume, htransfers, if_true, hr]
      rcases hcases with ⟨hb, next', ht, hnext, hnext', hrun'⟩ | ⟨hb, ht, hrun'⟩
      · exact ⟨.waiting next' hb ht hnext hnext' hrun', h.short, hblocks⟩
      · exact ⟨.closed _ (.inr (hb.trans hbackground)) ht le_rfl hrun', h.short, hblocks⟩

lemma Running.step (hc : 0 < capacity) (h : s.Running head start) {a : MirrorAction}
    (hcount : s.InCount takes capacity a) : (s.step takes capacity a).Running head start := by
  cases a with
  | append data => exact h.append data
  | flush isComplete => exact h.flush hc hcount
  | resume found => exact h.resume hc hcount

lemma Running.contiguous {opening : MirrorSession} (h : s.Running opening.conn.writer.taken start) :
    Contiguous opening start s := by
  have hend {e : ℕ} (hrun : Run opening.conn.writer.taken start e s.file s.conn.writer.taken) :
      Contiguous opening start s := by
    obtain ⟨data, htaken, hdata⟩ := hrun
    exact ⟨e, by rw [dataTaken, htaken, List.drop_left, hdata]⟩
  cases h.stage with
  | sending _ _ _ _ hrun => exact hend hrun
  | waiting _ _ _ _ _ hrun => exact hend hrun
  | closed _ _ _ _ hrun => exact hend hrun

lemma openedOn_running {pack : Write → Bytes} {params : WriteInstructions} {blocking : Bool}
    (hoffset : params.offset ≤ file.length) (hfile : file.length < 2 ^ 63) :
    (openedOn takes blocking pack params file).Running (openedOn takes blocking pack params file).conn.writer.taken
      params.offset := by
  refine ⟨.sending ?_ rfl le_rfl hoffset ⟨[], by simp, ?_⟩, hfile, ?_⟩
  · cases blocking <;> simp [openedOn, openStream, ConnectionWriteStream.write]
  · rw [List.flatten_nil, eq_comm, List.drop_eq_nil_iff, List.length_take]
    exact min_le_left _ _
  · cases blocking <;> simp [openedOn, openStream, ConnectionWriteStream.write]

lemma store_no_room {write : WriteInstructions} {contents : FileReader} {background : Bool} {t : Transfer}
    (h : Run head 0 0 [] t.conn.writer.taken) :
    Run head 0 0 [] (store takes 0 write contents background t).2.conn.writer.taken := by
  have hloop (contents : FileReader) : streamLoop takes 0 (contents.contents.length + 1) contents t.conn =
    (0, t.conn) := by
    simp [streamLoop, FileReader.stream]
  by_cases hbackground : t.conn.background ∧ !background
  · simp only [store, if_pos hbackground]
    exact h
  · simp only [store, if_neg hbackground]
    generalize (if 0 < write.offset then contents.setPosition write.offset else some contents) = reader
    cases reader with
    | none => exact h
    | some contents =>
      simp only [hloop]
      split_ifs
      · exact h
      · rw [write_empty]
        exact h.empty _
      · exact h

lemma step_no_room (h : Run head 0 0 [] s.conn.writer.taken) (a : MirrorAction) :
    Run head 0 0 [] (s.step takes 0 a).conn.writer.taken := by
  cases a with
  | append data =>
    rw [MirrorSession.step, MirrorSession.append]
    split <;> exact h
  | flush isComplete =>
    rw [MirrorSession.step, MirrorSession.flush]
    split
    · exact h
    · exact store_no_room h
  | resume found =>
    rw [MirrorSession.step, MirrorSession.resume, WriteSupervisor.resume]
    cases s.transfers with
    | nil => exact h
    | cons write transfers =>
      cases found with
      | false => exact h
      | true => exact store_no_room (t := { s.toTransfer with transfers := transfers }) h

theorem taken_contiguous {pack : Write → Bytes} {params : WriteInstructions} {blocking : Bool}
    {actions : List MirrorAction} (hoffset : params.offset ≤ file.length) (hfile : file.length < 2 ^ 63)
    (h : Along (step takes capacity) (InCount takes capacity) (openedOn takes blocking pack params file) actions) :
    ∀ before, before <+: actions → Contiguous (openedOn takes blocking pack params file) params.offset
      (before.foldl (step takes capacity) (openedOn takes blocking pack params file)) := by
  rintro before ⟨rest, rfl⟩
  rcases Nat.eq_zero_or_pos capacity with rfl | hc
  · have hopened : Run (openedOn takes blocking pack params file).conn.writer.taken 0 0 []
        (openedOn takes blocking pack params file).conn.writer.taken := ⟨[], by simp, rfl⟩
    have hrun : Run (openedOn takes blocking pack params file).conn.writer.taken 0 0 []
        (before.foldl (step takes 0) (openedOn takes blocking pack params file)).conn.writer.taken :=
      foldl_invariant (I := fun s : MirrorSession => Run (openedOn takes blocking pack params
        file).conn.writer.taken 0 0 []
        s.conn.writer.taken) (fun _ a hs => step_no_room hs a) hopened before
    obtain ⟨data, htaken, hdata⟩ := hrun
    refine ⟨0, ?_⟩
    rw [dataTaken, htaken, List.drop_left, hdata]
    simp
  · refine Running.contiguous ?_
    exact ((along_append _).1 h).1.invariant (fun s a hs hcount => hs.step hc hcount) (openedOn_running hoffset hfile)

section Examples

def grown : List MirrorAction := [.append [1, 2, 3, 4, 5, 6], .flush false, .append [7, 8], .resume true]

theorem taken_contiguous_example :
    Contiguous (openedOn (fun i => decide (i ≠ 2)) false (fun _ => [7]) { name := [107] } []) 0
      (grown.foldl (step (fun i => decide (i ≠ 2)) 4)
        (openedOn (fun i => decide (i ≠ 2)) false (fun _ => [7]) { name := [107] } [])) := by
  refine @taken_contiguous (fun i => decide (i ≠ 2)) 4 [] (fun _ => [7]) { name := [107] } false grown (by decide)
    (by decide) ⟨trivial, ?_, trivial, ?_, trivial⟩ grown (List.prefix_refl _)
  · intro _ _
    unfold Counted
    decide
  · intro write hwrite _
    obtain rfl : rewrite { name := [107] } 4 = write := Option.some.inj hwrite
    unfold Counted
    decide

example : dataTaken (openedOn (fun i => decide (i ≠ 2)) true (fun _ => [7]) { name := [107] } [])
    ([MirrorAction.append [1, 2, 3, 4, 5, 6], .flush false, .append [7, 8], .flush false].foldl
      (step (fun i => decide (i ≠ 2)) 4) (openedOn (fun i => decide (i ≠ 2)) true (fun _ => [7])
        { name := [107] } [])) =
    [1, 2, 3, 4, 7, 8] := by decide

def refusedLate (i : ℕ) : Bool := decide (i ≠ 2 ^ 16 + 1)

lemma refusedLate_true {i : ℕ} (h : i ≠ 2 ^ 16 + 1) : refusedLate i = true := decide_eq_true h

lemma store_late (hlength : file.length = 2 ^ 32 + 1) {t : Transfer} (write : WriteInstructions)
    (hconn : t.conn = { writer := ⟨1, taken⟩ }) (hoffset : write.offset = 0) :
    ∃ data, data.flatten = file.take (2 ^ 32) ∧ store refusedLate (2 ^ 16) write ⟨file, 0⟩ false t =
      (false, ⟨{ writer := ⟨2 ^ 16 + 2, taken ++ data⟩, full := true, background := true },
        t.transfers ++ [{ write with isComplete := true }]⟩) := by
  have hpackets : packets (2 ^ 16) file.length = 2 ^ 16 + 1 := by
    rw [hlength, packets]
    omega
  have hloop := @streamLoop_looped refusedLate (2 ^ 16) (by omega) (file.length + 1) file 0 t.conn (by omega)
  rw [List.drop_zero] at hloop
  have hrewrite : rewrite write (2 ^ 16 * 2 ^ 16) = { write with isComplete := true } := by
    rw [rewrite, hoffset]
    have hzero : ((((0 : ℕ) : ℤ) + toInt ((2 ^ 16 * 2 ^ 16 : ℕ) : ℤ)) % 2 ^ 64).toNat = 0 := by
      rw [toInt]
      omega
    rw [hzero, ← hoffset]
  simp only [store, hconn, hoffset, lt_irrefl, if_false, Bool.false_eq_true, false_and]
  rw [hconn] at hloop
  generalize streamLoop refusedLate (2 ^ 16) (file.length + 1) ⟨file, 0⟩ { writer := ⟨1, taken⟩ } = r at hloop ⊢
  cases hloop with
  | all data hne hdata htaken =>
    have hlate : refusedLate (1 + 2 ^ 16) = true := htaken (2 ^ 16) (by rw [hpackets]; omega)
    simp [refusedLate] at hlate
  | refused k data hk hne hdata htaken hrefused =>
    obtain rfl : k = 2 ^ 16 := by
      by_contra hne
      rw [refusedLate_true (by simp only; omega)] at hrefused
      cases hrefused
    refine ⟨data, hdata, ?_⟩
    have hoffered : 1 + 2 ^ 16 + 1 = 2 ^ 16 + 2 := by omega
    simp only [ConnectionWriteStream.noted, Bool.false_eq_true, if_false, if_true, hrewrite, hoffered]

lemma store_again {t : Transfer} (write : WriteInstructions) {full : Bool}
    (hconn : t.conn = { writer := ⟨2 ^ 16 + 2, taken⟩, full := full, background := true }) (hoffset : write.offset = 0)
    (hne : file ≠ []) :
    ∃ data, data.flatten = file ∧
      (store refusedLate (2 ^ 16) write ⟨file, 0⟩ true t).2.conn.writer.taken = taken ++ data := by
  have hloop := @streamLoop_looped refusedLate (2 ^ 16) (by omega) (file.length + 1) file 0 t.conn (by omega)
  rw [List.drop_zero] at hloop
  simp only [store, hconn, hoffset, lt_irrefl, if_false, Bool.not_true, Bool.false_eq_true, and_false]
  rw [hconn] at hloop
  generalize streamLoop refusedLate (2 ^ 16) (file.length + 1) ⟨file, 0⟩
    { writer := ⟨2 ^ 16 + 2, taken⟩, full := full, background := true } = r at hloop ⊢
  cases hloop with
  | all data hne' hdata htaken =>
    have hempty : file.isEmpty = false := List.isEmpty_eq_false_iff.2 hne
    have hfull : ConnectionWriteStream.noted { writer := ⟨2 ^ 16 + 2, taken⟩, full := full, background := true }
        (full && file.isEmpty) = false := by simp [ConnectionWriteStream.noted, hempty]
    simp only [hfull, Bool.false_eq_true, if_false]
    cases write.isComplete with
    | false => exact ⟨data, hdata, rfl⟩
    | true =>
      simp only [if_true, write_empty]
      exact ⟨data ++ if refusedLate _ then [[]] else [], by split <;> simpa using hdata, by rw [List.append_assoc]⟩
  | refused k data hk hne' hdata htaken hrefused =>
    rw [refusedLate_true (by simp only; omega)] at hrefused
    cases hrefused

lemma taken_twice (hlength : file.length = 2 ^ 32 + 1) {s : MirrorSession} (hfile : s.file = file)
    (hparams : s.params = { name := [107] }) (hfinished : s.finished = false) (htransfers : s.transfers = [])
    (hconn : s.conn = { writer := ⟨1, taken⟩ }) : ∃ data, data.flatten = file.take (2 ^ 32) ++ file ∧
      ([MirrorAction.flush true, .resume true].foldl (step refusedLate (2 ^ 16)) s).conn.writer.taken = taken ++ data ∧
      ([MirrorAction.flush true, .resume true].foldl (step refusedLate (2 ^ 16)) s).file = file := by
  have hne : file ≠ [] := by
    rintro rfl
    simp at hlength
  obtain ⟨data, hdata, hstore⟩ := store_late hlength { name := [107], isComplete := true } hconn rfl
  obtain ⟨more, hmore, hagain⟩ := store_again
    (t := ⟨{ writer := ⟨2 ^ 16 + 2, taken ++ data⟩, full := true, background := true }, []⟩)
    { name := [107], isComplete := true } rfl rfl hne
  refine ⟨data ++ more, by rw [List.flatten_append, hdata, hmore], ?_, ?_⟩
  · rw [← List.append_assoc, ← hagain]
    simp only [List.foldl_cons, List.foldl_nil, step, MirrorSession.flush, hfinished, hparams, hfile,
      Bool.false_eq_true, if_false, if_true, hstore, htransfers, List.nil_append, MirrorSession.resume,
      WriteSupervisor.resume]
  · simp only [List.foldl_cons, List.foldl_nil, step, MirrorSession.flush, hfinished, hfile,
      Bool.false_eq_true, if_false,
      MirrorSession.resume]

lemma not_contiguous_of_length (hlength : file.length = 2 ^ 32 + 1) :
    ¬ Contiguous (openedOn refusedLate false (fun _ => [7]) { name := [107] } file) 0
      ([MirrorAction.flush true, .resume true].foldl (step refusedLate (2 ^ 16))
        (openedOn refusedLate false (fun _ => [7]) { name := [107] } file)) := by
  have hconn : (openedOn refusedLate false (fun _ => [7]) { name := [107] } file).conn =
      { writer := ⟨1, [reqHeader (fun _ => [7]) { name := [107] }]⟩ } := by
    simp [openedOn, openStream, ConnectionWriteStream.write, SocketWriter.send, refusedLate_true]
  obtain ⟨data, hdata, htaken, hfile⟩ := taken_twice hlength rfl rfl rfl rfl hconn
  rintro ⟨e, he⟩
  rw [dataTaken, htaken, hconn, List.drop_left, hdata, hfile, List.drop_zero] at he
  have hlong := congrArg List.length he
  rw [List.length_append, List.length_take, List.length_take, hlength] at hlong
  omega

theorem not_contiguous_when_uncounted :
    ¬ Contiguous (openedOn refusedLate false (fun _ => [7]) { name := [107] } (List.replicate (2 ^ 32 + 1) 0)) 0
      ([MirrorAction.flush true, .resume true].foldl (step refusedLate (2 ^ 16))
        (openedOn refusedLate false (fun _ => [7]) { name := [107] } (List.replicate (2 ^ 32 + 1) 0))) :=
  not_contiguous_of_length List.length_replicate

end Examples

end MirrorSession

end Turbopump
