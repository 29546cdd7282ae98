import Turbopump.Lib.Register
import Turbopump.Storage.SimpleDigests

/-! Complete sessions on one key of the simple store, in one order and in another. -/

namespace Turbopump

/-- What is relied on of `merge`: merged into an empty version, the version of a file stays as it is. -/
def TurboLib.MergesIntoEmpty (T : TurboLib) : Prop :=
  ∀ t isDeleted, T.merge [] (SimpleFileStore.lookupVersion T t isDeleted) = SimpleFileStore.lookupVersion T t isDeleted

structure Change where
  time : UInt64
  deleted : Bool
  content : Bytes
  deriving DecidableEq

namespace SimpleSession

variable (T : TurboLib)

def deliver (hasher : Bytes → Bytes) (files : SimpleFiles) (session : SimpleSession) : SimpleFiles :=
  match session.written T files with
  | (.accepted w, files) => (w.commit T hasher files).2
  | (_, files) => files

structure Carries (session : SimpleSession) (d : Change) : Prop where
  version : ∃ clock, VectorClock.fromString T session.version = .parsed clock ∧ clock ≠ [] ∧
    SimpleFileStore.timeFromVersion clock = d.time ∧ VectorClock.isDeleted clock = d.deleted ∧
    VectorClock.isExpired clock 604800 session.host.now = false
  content : (session.buffers.map Prod.snd).flatten = d.content

end SimpleSession

namespace SimpleFileStore

structure Idle (files : SimpleFiles) : Prop extends Settled files where
  inprogress : files.inprogress = none

def held (files : SimpleFiles) : Option Change := match files.current with
  | some file => some ⟨file.mtime, false, file.content⟩
  | none => files.deleted.map fun file => ⟨file.mtime, true, file.content⟩

/-- The starting files take `d`, none of the changes is later, and `d` is a delete if one of its time is. -/
structure Leading (files : SimpleFiles) (ds : List Change) (d : Change) : Prop where
  mem : d ∈ ds
  taken : match held files with
    | none => 0 < d.time ∨ d.deleted
    | some old => old.time < d.time ∨ old.time = d.time ∧ d.deleted
  latest : ∀ e ∈ ds, e.time < d.time ∨ e.time = d.time ∧ (e.deleted → d.deleted)

def rank : Option Change → ℕ ×ₗ Bool
  | none => toLex (0, false)
  | some d => toLex (d.time.toNat, d.deleted)

def yields (r : ℕ ×ₗ Bool) : Bool := (ofLex r).2

def filesOf : Option Change → SimpleFiles
  | none => {}
  | some d => if d.deleted then { deleted := some ⟨d.content, d.time⟩ } else { current := some ⟨d.content, d.time⟩ }

variable {T : TurboLib} {hasher : Bytes → Bytes} {files : SimpleFiles} {ds : List Change} {d : Change}

lemma held_filesOf (h : Option Change) : held (filesOf h) = h := by
  cases h with
  | none => rfl
  | some d =>
    obtain ⟨time, deleted, content⟩ := d
    cases deleted <;> rfl

lemma idle_filesOf (h : Option Change) : Idle (filesOf h) := by
  cases h with
  | none => exact ⟨⟨rfl, Or.inl rfl⟩, rfl⟩
  | some d =>
    obtain ⟨time, deleted, content⟩ := d
    cases deleted with
    | false => exact ⟨⟨rfl, Or.inr rfl⟩, rfl⟩
    | true => exact ⟨⟨rfl, Or.inl rfl⟩, rfl⟩

lemma Idle.eq_filesOf (h : Idle files) : files = filesOf (held files) := by
  obtain ⟨⟨hreserve, heither⟩, hnone⟩ := h
  obtain ⟨current, deleted, inprogress, reserve⟩ := files
  obtain rfl : reserve = none := hreserve
  obtain rfl : inprogress = none := hnone
  cases current with
  | some file =>
    obtain rfl : deleted = none := heither.resolve_left (by simp)
    rfl
  | none => cases deleted <;> rfl

lemma takes_iff (h : Option Change) : Register.Takes rank yields h (some d) ↔
    match h with
    | none => 0 < d.time ∨ d.deleted
    | some old => old.time < d.time ∨ old.time = d.time ∧ d.deleted := by
  obtain ⟨time, deleted, content⟩ := d
  cases h with
  | none =>
    cases deleted <;> simp [Register.Takes, rank, yields, Prod.Lex.toLex_lt_toLex, UInt64.lt_iff_toNat_lt]
    omega
  | some old =>
    obtain ⟨time', deleted', content'⟩ := old
    cases deleted <;> cases deleted' <;> simp [Register.Takes, rank, yields, Prod.Lex.toLex_lt_toLex,
      UInt64.lt_iff_toNat_lt,
      ← UInt64.toNat_inj]

lemma leads_iff : Register.Leads rank yields (held files) (ds.map some) (some d) ↔ Leading files ds d := by
  have hrank (e : Change) : rank (some e) ≤ rank (some d) ↔ e.time < d.time ∨ e.time = d.time ∧
    (e.deleted → d.deleted) := by
    rw [rank, rank, Prod.Lex.toLex_le_toLex, UInt64.lt_iff_toNat_lt, ← UInt64.toNat_inj, Bool.le_iff_imp]
  constructor
  · rintro ⟨hmem, htakes, hhighest⟩
    refine ⟨by simpa using hmem, (takes_iff _).1 htakes, fun e he => ?_⟩
    exact (hrank e).1 (hhighest _ (List.mem_map_of_mem he))
  · rintro ⟨hmem, htaken, hlatest⟩
    refine ⟨List.mem_map_of_mem hmem, (takes_iff _).2 htaken, fun c hc => ?_⟩
    obtain ⟨e, he, rfl⟩ := List.mem_map.1 hc
    exact (hrank e).2 (hlatest e he)

lemma Leading.rank_eq {e : Change} (hd : Leading files ds d) (he : Leading files ds e) :
    e.time = d.time ∧ e.deleted = d.deleted := by
  have hlate := hd.latest e he.mem
  have hlate' := he.latest d hd.mem
  rw [UInt64.lt_iff_toNat_lt, ← UInt64.toNat_inj] at hlate hlate'
  have htime : e.time.toNat = d.time.toNat := by omega
  refine ⟨UInt64.toNat_inj.1 htime, Bool.eq_iff_iff.2 ⟨?_, ?_⟩⟩
  · exact (hlate.resolve_left (by omega)).2
  · exact (hlate'.resolve_left (by omega)).2

section Step

variable (hT : T.Base64) (hS : T.Stamps)
include hT hS

lemma ofName_lookupVersion (t : UInt64) (isDeleted : Bool) :
    VectorClock.ofName T (VectorClock.toString T (lookupVersion T t isDeleted)) = lookupVersion T t isDeleted := by
  have hsec : Clock.Plain ⟨ascii "sec", t, 0⟩ := ⟨show ∀ b ∈ ascii "sec", isPlain b by decide +kernel, by simp⟩
  have hdelete : Clock.Plain ⟨ascii "delete", t, 0⟩ :=
    ⟨show ∀ b ∈ ascii "delete", isPlain b by decide +kernel, by simp⟩
  have hparse : VectorClock.fromString T (VectorClock.toString T (lookupVersion T t isDeleted)) =
      .parsed (lookupVersion T t isDeleted) := by
    cases isDeleted with
    | false =>
      rw [lookupVersion_false hS]
      apply VectorClock.fromString_toString hT
      · simpa using hsec
      · simp
    | true =>
      rw [lookupVersion_true hS]
      apply VectorClock.fromString_toString hT
      · simpa using ⟨hdelete, hsec⟩
      · simp
  rw [VectorClock.ofName, hparse]

lemma mergedVersion_filesOf (hM : T.MergesIntoEmpty) (h : Option Change) :
    timeFromVersion (mergedVersion T (filesOf h) true) = (h.map Change.time).getD 0 := by
  cases h with
  | none => rfl
  | some d =>
    obtain ⟨time, deleted, content⟩ := d
    have htime := (lookupVersion_spec hS time deleted).2.2.1
    cases deleted <;> simpa [filesOf, mergedVersion, versions, ofName_lookupVersion hT hS, hM time] using htime

end Step

lemma written_buffers (buffers : List (Host × Bytes)) (w : SimpleStream) (file : StampedFile) (hopen : w.closed = false)
    (hoffset : w.offset = file.content.length) (hfile : files.inprogress = some file) : ∃ offset mtime,
      buffers.foldl (fun (w, files) (host, buff) => SimpleStream.write w host files buff) (w, files) =
        ({ w with offset := offset },
          { files with inprogress := some ⟨file.content ++ (buffers.map Prod.snd).flatten, mtime⟩ }) := by
  induction buffers generalizing w file files with
  | nil => exact ⟨w.offset, file.mtime, by simp [← hfile]⟩
  | cons b buffers ih =>
    have hwrite : w.write b.1 files b.2 = ({ w with offset := w.offset + b.2.length },
        { files with inprogress := some ⟨file.content ++ b.2, b.1.now⟩ }) := by
      simp [SimpleStream.write, hopen, hfile, hoffset, FileSystem.overwrite_end]
    obtain ⟨offset, mtime, hrest⟩ := @ih { files with inprogress := some ⟨file.content ++ b.2, b.1.now⟩ }
      { w with offset := w.offset + b.2.length } ⟨file.content ++ b.2, b.1.now⟩ hopen
      (by rw [hoffset, List.length_append]) rfl
    refine ⟨offset, mtime, ?_⟩
    rw [List.foldl_cons]
    simp only [hwrite]
    rw [hrest]
    simp

section Deliver

variable {session : SimpleSession} (hT : T.Base64) (hS : T.Stamps) (hM : T.MergesIntoEmpty)
include hT hS hM

lemma openVersion_filesOf (host : Host) (h : Option Change) {clock : VectorClock}
    (htime : timeFromVersion clock = d.time)
    (hdeleted : VectorClock.isDeleted clock = d.deleted) (hlive : VectorClock.isExpired clock 604800 host.now = false) :
    openVersion T host (filesOf h) clock = if Register.Takes rank yields h (some d) then
      (.accepted ⟨0, { version := clock }, false⟩, { filesOf h with inprogress := some ⟨[], host.now⟩ })
      else (.refused, filesOf h) := by
  have hrefused : (d.time < (h.map Change.time).getD 0 ∨ d.time = (h.map Change.time).getD 0 ∧ d.deleted = false) ↔
      ¬ Register.Takes rank yields h (some d) := by
    rw [takes_iff]
    cases h with
    | none => cases d.deleted <;> simp [UInt64.pos_iff_ne_zero]
    | some old =>
      simp only [Option.map_some, Option.getD_some, UInt64.lt_iff_toNat_lt, ← UInt64.toNat_inj]
      cases d.deleted <;> simp <;> omega
  rw [openVersion, mergedVersion_filesOf hT hS hM, htime, hdeleted, hlive, (idle_filesOf h).inprogress]
  by_cases htakes : Register.Takes rank yields h (some d)
  · rw [if_pos htakes, if_neg]
    · rfl
    · simpa using mt hrefused.1 (not_not.2 htakes)
  · rw [if_neg htakes, if_pos]
    simpa using hrefused.2 htakes

omit hT hS hM in
lemma finished_filesOf {h : Option Change} {clock : VectorClock} {mtime : UInt64}
    (htime : timeFromVersion clock = d.time) (hdeleted : VectorClock.isDeleted clock = d.deleted)
    (htakes : Register.Takes rank yields h (some d)) :
    finished { filesOf h with inprogress := some ⟨d.content, mtime⟩ } clock ⟨d.content, mtime⟩ = filesOf (some d) := by
  have hgreater : testIfVersionGreater clock
      (slot (!d.deleted) { filesOf h with inprogress := some ⟨d.content, mtime⟩ }) = true := by
    rw [takes_iff] at htakes
    cases h with
    | none => cases d.deleted <;> rfl
    | some old =>
      obtain ⟨time, deleted, content⟩ := old
      have hnewer : time < d.time ∨ time = d.time ∧ d.deleted := htakes
      cases deleted with
      | false =>
        cases hd : d.deleted with
        | false => rfl
        | true => simpa [filesOf, slot, testIfVersionGreater, htime, hdeleted, hd, @eq_comm _ time] using hnewer
      | true =>
        cases hd : d.deleted with
        | false => simpa [filesOf, slot, testIfVersionGreater, htime, hdeleted, hd] using hnewer
        | true => rfl
  rw [finished, hdeleted, if_pos hgreater, htime, filesOf]
  cases d.deleted <;> simp [(idle_filesOf h).reserve]

lemma deliver_filesOf (hcarries : session.Carries T d) (h : Option Change) :
    session.deliver T hasher (filesOf h) = filesOf (Register.offer rank yields h (some d)) := by
  obtain ⟨⟨clock, hparse, hne, htime, hdeleted, hlive⟩, hcontent⟩ := hcarries
  have hopen : write T session.host (filesOf h) session.version =
      openVersion T session.host (filesOf h) clock := by
    rw [write, hparse]
    simp only [if_neg hne]
  rw [openVersion_filesOf hT hS hM session.host h htime hdeleted hlive] at hopen
  rw [Register.offer]
  by_cases htakes : Register.Takes rank yields h (some d)
  · rw [if_pos htakes] at hopen ⊢
    obtain ⟨offset, mtime, hbuffers⟩ := @written_buffers { filesOf h with inprogress := some ⟨[], session.host.now⟩ }
      session.buffers ⟨0, { version := clock }, false⟩ ⟨[], session.host.now⟩ rfl rfl rfl
    have hwritten : session.written T (filesOf h) = (.accepted ⟨offset, { version := clock }, false⟩,
        { filesOf h with inprogress := some ⟨d.content, mtime⟩ }) := by
      rw [SimpleSession.written, hopen]
      simp only [hbuffers, List.nil_append, hcontent]
    have hreserve : { filesOf h with inprogress := some ⟨d.content, mtime⟩ }.reserve = none := by
      exact (idle_filesOf h).reserve
    rw [SimpleSession.deliver, hwritten]
    exact (commit_cases hasher hreserve rfl).2.trans (finished_filesOf htime hdeleted htakes)
  · rw [if_neg htakes] at hopen ⊢
    rw [SimpleSession.deliver, SimpleSession.written, hopen]

lemma foldl_deliver {sessions : List SimpleSession} {es : List Change}
    (hsessions : List.Forall₂ (SimpleSession.Carries T) sessions es) (h : Option Change) :
    sessions.foldl (SimpleSession.deliver T hasher) (filesOf h) =
      filesOf ((es.map some).foldl (Register.offer rank yields) h) := by
  induction hsessions generalizing h with
  | nil => rfl
  | cons hcarries _ ih =>
    rw [List.foldl_cons, deliver_filesOf hT hS hM hcarries, ih]
    rfl

omit hT hS hM in
lemma exists_sessions {es : List Change} (h : ∀ d ∈ es, ∃ session : SimpleSession, session.Carries T d) :
    ∃ sessions, List.Forall₂ (SimpleSession.Carries T) sessions es := by
  induction es with
  | nil => exact ⟨[], .nil⟩
  | cons d es ih =>
    obtain ⟨session, hsession⟩ := h d (by simp)
    obtain ⟨sessions, hsessions⟩ := ih fun d hd => h d (List.mem_cons_of_mem _ hd)
    exact ⟨session :: sessions, .cons hsession hsessions⟩

theorem orders_agree_iff (hidle : Idle files) (hds : ∀ d ∈ ds, ∃ session : SimpleSession, session.Carries T d) :
    (∀ (sessions sessions' : List SimpleSession) (es es' : List Change), es.Perm ds → es'.Perm ds →
      List.Forall₂ (SimpleSession.Carries T) sessions es → List.Forall₂ (SimpleSession.Carries T) sessions' es' →
        held (sessions.foldl (SimpleSession.deliver T hasher) files) =
          held (sessions'.foldl (SimpleSession.deliver T hasher) files)) ↔
      ∀ d e, Leading files ds d → Leading files ds e → d.content = e.content := by
  have hone : (∀ d e, Leading files ds d → Leading files ds e → d.content = e.content) ↔
      ∀ b c, Register.Leads rank yields (held files) (ds.map some) b →
        Register.Leads rank yields (held files) (ds.map some) c → b = c := by
    constructor
    · intro h b c hb hc
      obtain ⟨d, -, rfl⟩ := List.mem_map.1 hb.mem
      obtain ⟨e, -, rfl⟩ := List.mem_map.1 hc.mem
      have hcontent := h d e (leads_iff.1 hb) (leads_iff.1 hc)
      have hrank := (leads_iff.1 hb).rank_eq (leads_iff.1 hc)
      obtain ⟨time, deleted, content⟩ := d
      obtain ⟨rfl, rfl⟩ := hrank
      obtain rfl := hcontent
      rfl
    · intro h d e hd he
      rw [Option.some.inj (h _ _ (leads_iff.2 hd) (leads_iff.2 he))]
  have hrun {sessions : List SimpleSession} {es : List Change}
      (hsessions : List.Forall₂ (SimpleSession.Carries T) sessions es) :
      held (sessions.foldl (SimpleSession.deliver T hasher) files) =
        (es.map some).foldl (Register.offer rank yields) (held files) := by
    rw [hidle.eq_filesOf, foldl_deliver hT hS hM hsessions, held_filesOf, held_filesOf]
  rw [hone, ← Register.foldl_perm_iff]
  constructor
  · intro hagree cs hperm
    -- an order of the values is one of the changes, and each of these has its session
    have hes : (cs.filterMap id).Perm ds := by simpa using hperm.filterMap id
    have hcs : (cs.filterMap id).map some = cs := by
      have hsome : ∀ c ∈ cs, c.isSome := by
        intro c hc
        obtain ⟨d, -, rfl⟩ := List.mem_map.1 (hperm.mem_iff.1 hc)
        rfl
      rw [List.map_filterMap]
      refine (List.filterMap_congr fun c hc => ?_).trans List.filterMap_some
      obtain ⟨d, rfl⟩ := Option.isSome_iff_exists.1 (hsome c hc)
      rfl
    obtain ⟨sessions, hsessions⟩ := exists_sessions fun d hd => hds d (hes.mem_iff.1 hd)
    obtain ⟨sessions', hsessions'⟩ := exists_sessions hds
    have := hagree _ _ _ _ hes (List.Perm.refl ds) hsessions hsessions'
    rwa [hrun hsessions, hrun hsessions', hcs] at this
  · intro hsame sessions sessions' es es' hes hes' hsessions hsessions'
    rw [hrun hsessions, hrun hsessions', hsame _ (hes.map some), hsame _ (hes'.map some)]

end Deliver

section Examples

def writeOf (time : UInt64) (byte : UInt8) : SimpleSession :=
  ⟨⟨[], 5⟩, VectorClock.toString TurboLib.reference [⟨ascii "sec", time, 0⟩], [(⟨[], 5⟩, [byte])]⟩

lemma writeOf_carries (time : UInt64) (byte : UInt8) :
    (writeOf time byte).Carries TurboLib.reference ⟨time, false, [byte]⟩ where
  version := by
    have hlive : VectorClock.isDeleted [⟨ascii "sec", time, 0⟩] = false :=
      decide_eq_false (show ascii "sec" ≠ ascii "delete" by decide +kernel)
    refine ⟨[⟨ascii "sec", time, 0⟩], ?_, by simp, rfl, hlive, ?_⟩
    · apply VectorClock.fromString_toString TurboLib.reference_base64
      · simpa using ⟨show ∀ b ∈ ascii "sec", isPlain b by decide +kernel, by simp⟩
      · simp
    · rw [VectorClock.isExpired, hlive]
      rfl
  content := rfl

lemma reference_mergesIntoEmpty : TurboLib.reference.MergesIntoEmpty := by
  intro t isDeleted
  simp [TurboLib.reference, Clocks.merge]

lemma idle_empty : Idle {} := idle_filesOf none

theorem orders_agree_iff_example :
    held ([writeOf 1 7, writeOf 2 8].foldl (SimpleSession.deliver TurboLib.reference id) {}) =
      held ([writeOf 2 8, writeOf 1 7].foldl (SimpleSession.deliver TurboLib.reference id) {}) := by
  refine (@orders_agree_iff TurboLib.reference id {} [⟨1, false, [7]⟩, ⟨2, false, [8]⟩] TurboLib.reference_base64
    TurboLib.reference_stamps reference_mergesIntoEmpty idle_empty ?_).2 ?_ _ _ _ _ (List.Perm.refl _)
    (List.Perm.swap _ _ _)
    (.cons (writeOf_carries 1 7) (.cons (writeOf_carries 2 8) .nil))
    (.cons (writeOf_carries 2 8) (.cons (writeOf_carries 1 7) .nil))
  · rintro d hd
    simp only [List.mem_cons, List.not_mem_nil, or_false] at hd
    rcases hd with rfl | rfl
    · exact ⟨_, writeOf_carries 1 7⟩
    · exact ⟨_, writeOf_carries 2 8⟩
  · have hlast : ∀ d, Leading {} [⟨1, false, [7]⟩, ⟨2, false, [8]⟩] d → d.content = [8] := by
      intro d hd
      have hmem := hd.mem
      have hlate := hd.latest ⟨2, false, [8]⟩ (by simp)
      simp only [List.mem_cons, List.not_mem_nil, or_false] at hmem
      rcases hmem with rfl | rfl
      · exact absurd hlate (by decide)
      · rfl
    intro d e hd he
    rw [hlast d hd, hlast e he]

theorem orders_disagree_of_one_time :
    (writeOf 1 7).Carries TurboLib.reference ⟨1, false, [7]⟩ ∧
      (writeOf 1 8).Carries TurboLib.reference ⟨1, false, [8]⟩ ∧
      ∀ hasher, held ([writeOf 1 7, writeOf 1 8].foldl (SimpleSession.deliver TurboLib.reference hasher) {}) ≠
        held ([writeOf 1 8, writeOf 1 7].foldl (SimpleSession.deliver TurboLib.reference hasher) {}) := by
  refine ⟨writeOf_carries 1 7, writeOf_carries 1 8, fun hasher => ?_⟩
  have hrun {sessions : List SimpleSession} {es : List Change}
      (hsessions : List.Forall₂ (SimpleSession.Carries TurboLib.reference) sessions es) :=
    @foldl_deliver TurboLib.reference hasher TurboLib.reference_base64 TurboLib.reference_stamps
      reference_mergesIntoEmpty
      sessions es hsessions none
  have hfirst := hrun (.cons (writeOf_carries 1 7) (.cons (writeOf_carries 1 8) .nil))
  have hsecond := hrun (.cons (writeOf_carries 1 8) (.cons (writeOf_carries 1 7) .nil))
  rw [show ({} : SimpleFiles) = filesOf none from rfl, hfirst, hsecond, held_filesOf, held_filesOf]
  decide

end Examples

end SimpleFileStore

end Turbopump
