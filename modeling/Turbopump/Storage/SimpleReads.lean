import Turbopump.Storage.SimpleConvergence

/-! Reads of a key of the simple store beside a write that is not finished. -/

namespace Turbopump

/-- What is relied on of `merge` where it merges the versions of files: it gives an upper bound as long as the keys
are six or fewer, and nothing that is in neither version, and it changes nothing where nothing is newer. -/
structure TurboLib.MergesLatest (T : TurboLib) : Prop where
  mem : ∀ u v, ∀ c ∈ T.merge u v, c ∈ u ∨ c ∈ v
  upper : ∀ u v, ((u ++ v).map Clock.key).dedup.length ≤ 6 → ∀ c ∈ u ++ v, ∃ d ∈ T.merge u v,
    d.key = c.key ∧ c.time ≤ d.time
  covered : ∀ (vs : List VectorClock) v, (∀ c ∈ v, ∃ d ∈ vs.foldl T.merge [],
    d.key = c.key ∧ c.time ≤ d.time ∧ c.count ≤ d.count) → T.merge (vs.foldl T.merge []) v = vs.foldl T.merge []

namespace SimpleFileStore

def finishedFiles (files : SimpleFiles) : List StampedFile := files.current.toList ++ files.deleted.toList

/-- The file in progress is not newer than all the others, or there are none. -/
def Hidden (files : SimpleFiles) : Prop :=
  ∀ file ∈ files.inprogress, finishedFiles files = [] ∨ ∃ finished ∈ finishedFiles files, file.mtime ≤ finished.mtime

def withoutInprogress (files : SimpleFiles) : SimpleFiles := { files with inprogress := none }

variable {T : TurboLib} {name version : Bytes} {files : SimpleFiles}

def finishedVersions (T : TurboLib) (files : SimpleFiles) : List VectorClock :=
  files.current.toList.map (lookupVersion T ·.mtime false) ++ files.deleted.toList.map (lookupVersion T ·.mtime true)

def FileKeys (v : VectorClock) : Prop := ∀ c ∈ v, c.key ∈ [ascii "sec", ascii "delete"]

lemma sec_ne_delete : ascii "sec" ≠ ascii "delete" := by decide +kernel

lemma mem_lookupVersion (hS : T.Stamps) {t : UInt64} {isDeleted : Bool} {c : Clock} :
    c ∈ lookupVersion T t isDeleted ↔ c = ⟨ascii "sec", t, 0⟩ ∨ isDeleted ∧ c = ⟨ascii "delete", t, 0⟩ := by
  cases isDeleted with
  | false => simp [lookupVersion_false hS]
  | true => simp [lookupVersion_true hS, or_comm]

lemma fileKeys_lookupVersion (hS : T.Stamps) (t : UInt64) (isDeleted : Bool) :
    FileKeys (lookupVersion T t isDeleted) := by
  intro c hc
  rcases (mem_lookupVersion hS).1 hc with rfl | ⟨-, rfl⟩ <;> simp

lemma mem_finishedVersions {v : VectorClock} (h : v ∈ finishedVersions T files) :
    ∃ file ∈ finishedFiles files, ∃ isDeleted, v = lookupVersion T file.mtime isDeleted ∧
      (isDeleted → files.deleted = some file) := by
  rcases List.mem_append.1 h with h | h
  · obtain ⟨file, hfile, rfl⟩ := List.mem_map.1 h
    exact ⟨file, List.mem_append_left _ hfile, false, rfl, by simp⟩
  · obtain ⟨file, hfile, rfl⟩ := List.mem_map.1 h
    exact ⟨file, List.mem_append_right _ hfile, true, rfl, fun _ => by simpa using hfile⟩

lemma mergedVersion_eq (hT : T.Base64) (hS : T.Stamps) (files : SimpleFiles) : mergedVersion T files true =
    (files.inprogress.toList.map (lookupVersion T ·.mtime false)).foldl T.merge
      ((finishedVersions T files).foldl T.merge []) := by
  rw [← List.foldl_append, mergedVersion, versions, finishedVersions, if_pos rfl]
  simp only [List.foldl_map, List.foldl_append, ofName_lookupVersion hT hS]

lemma openReader_version {v : VectorClock} {reading : SimpleReading}
    (h : read.openReader name files v = .accepted reading) : reading.md.version = v := by
  rw [read.openReader] at h
  split at h
  · simp at h
  · obtain rfl := StoreAnswer.accepted.inj h
    rfl

section Latest

variable (hL : T.MergesLatest)
include hL

lemma mem_merged {vs : List VectorClock} {u : VectorClock} {c : Clock} (h : c ∈ vs.foldl T.merge u) :
    c ∈ u ∨ ∃ v ∈ vs, c ∈ v := by
  induction vs generalizing u with
  | nil => exact .inl h
  | cons v vs ih =>
    rcases ih h with h | ⟨w, hw, h⟩
    · rcases hL.mem u v c h with h | h
      · exact .inl h
      · exact .inr ⟨v, by simp, h⟩
    · exact .inr ⟨w, List.mem_cons_of_mem _ hw, h⟩

lemma merge_upper {u v : VectorClock} (hu : FileKeys u) (hv : FileKeys v) {c : Clock} (hc : c ∈ u ++ v) :
    ∃ d ∈ T.merge u v, d.key = c.key ∧ c.time ≤ d.time := by
  refine hL.upper u v ?_ c hc
  have hsubset : ((u ++ v).map Clock.key).dedup ⊆ [ascii "sec", ascii "delete"] := by
    intro key hkey
    obtain ⟨d, hd, rfl⟩ := List.mem_map.1 (List.mem_dedup.1 hkey)
    exact (List.mem_append.1 hd).elim (hu d) (hv d)
  exact ((List.nodup_dedup _).subperm hsubset).length_le.trans (by simp)

lemma merged_upper {vs : List VectorClock} {u : VectorClock} (hu : FileKeys u) (hvs : ∀ v ∈ vs, FileKeys v) {c : Clock}
    (hc : c ∈ u ∨ ∃ v ∈ vs, c ∈ v) : ∃ d ∈ vs.foldl T.merge u, d.key = c.key ∧ c.time ≤ d.time := by
  induction vs generalizing u c with
  | nil => exact ⟨c, hc.resolve_right (by simp), rfl, UInt64.le_refl _⟩
  | cons v vs ih =>
    have hkeys : FileKeys (T.merge u v) := fun d hd => (hL.mem u v d hd).elim (hu d) (hvs v (by simp) d)
    have hrest : ∀ w ∈ vs, FileKeys w := fun w hw => hvs w (List.mem_cons_of_mem _ hw)
    by_cases hlater : ∃ w ∈ vs, c ∈ w
    · exact ih hkeys hrest (.inr hlater)
    · have hmem : c ∈ u ++ v := by
        rcases hc with hc | ⟨w, hw, hc⟩
        · exact List.mem_append_left _ hc
        · rcases List.mem_cons.1 hw with rfl | hw
          · exact List.mem_append_right _ hc
          · exact absurd ⟨w, hw, hc⟩ hlater
      obtain ⟨d, hd, hkey, htime⟩ := merge_upper hL hu (hvs v (by simp)) hmem
      obtain ⟨e, he, hkey', htime'⟩ := ih hkeys hrest (.inl hd)
      exact ⟨e, he, hkey'.trans hkey, UInt64.le_trans htime htime'⟩

variable (hT : T.Base64) (hS : T.Stamps)
include hS

lemma mem_finished {c : Clock} (h : c ∈ (finishedVersions T files).foldl T.merge []) :
    ∃ file ∈ finishedFiles files, c.time = file.mtime ∧ (c.key = ascii "delete" → files.deleted = some file) := by
  obtain h | ⟨v, hv, h⟩ := mem_merged hL h
  · simp at h
  · obtain ⟨file, hfile, isDeleted, rfl, hdeleted⟩ := mem_finishedVersions hv
    rcases (mem_lookupVersion hS).1 h with rfl | ⟨his, rfl⟩
    · exact ⟨file, hfile, rfl, fun hkey => absurd hkey sec_ne_delete⟩
    · exact ⟨file, hfile, rfl, fun _ => hdeleted his⟩

lemma merge_inprogress_iff (t : UInt64) : T.merge ((finishedVersions T files).foldl T.merge [])
    (lookupVersion T t false) =
    (finishedVersions T files).foldl T.merge [] ↔ ∃ finished ∈ finishedFiles files, t ≤ finished.mtime := by
  have hkeys : ∀ v ∈ finishedVersions T files, FileKeys v := by
    intro v hv
    obtain ⟨file, -, isDeleted, rfl, -⟩ := mem_finishedVersions hv
    exact fileKeys_lookupVersion hS file.mtime isDeleted
  have hsec (u : UInt64) (isDeleted : Bool) : ⟨ascii "sec", u, 0⟩ ∈ lookupVersion T u isDeleted :=
    (mem_lookupVersion hS).2 (.inl rfl)
  constructor
  · intro h
    have hbase : FileKeys ((finishedVersions T files).foldl T.merge []) := by
      intro c hc
      obtain hc | ⟨v, hv, hc⟩ := mem_merged hL hc
      · simp at hc
      · exact hkeys v hv c hc
    obtain ⟨d, hd, -, htime⟩ := merge_upper hL hbase (fileKeys_lookupVersion hS t false)
      (List.mem_append_right _ (hsec t false))
    rw [h] at hd
    obtain ⟨file, hfile, heq, -⟩ := mem_finished hL hS hd
    exact ⟨file, hfile, heq ▸ htime⟩
  · rintro ⟨finished, hmem, htime⟩
    refine hL.covered _ _ fun c hc => ?_
    obtain ⟨v, hv, hfinished⟩ : ∃ v ∈ finishedVersions T files, ⟨ascii "sec", finished.mtime, 0⟩ ∈ v := by
      rcases List.mem_append.1 hmem with hmem | hmem
      · exact ⟨_, List.mem_append_left _ (List.mem_map_of_mem hmem), hsec _ _⟩
      · exact ⟨_, List.mem_append_right _ (List.mem_map_of_mem hmem), hsec _ _⟩
    obtain ⟨d, hd, hkey, hlate⟩ := merged_upper hL (show FileKeys [] by simp [FileKeys]) hkeys (.inr ⟨v, hv, hfinished⟩)
    obtain rfl : c = ⟨ascii "sec", t, 0⟩ := ((mem_lookupVersion hS).1 hc).resolve_right (by simp)
    exact ⟨d, hd, hkey, UInt64.le_trans htime hlate, Nat.zero_le _⟩

lemma openReader_finished (hM : T.MergesIntoEmpty) (hfinished : finishedFiles files ≠ []) : ∃ reading,
    read.openReader name files ((finishedVersions T files).foldl T.merge []) = .accepted reading ∧
      reading.md.version = (finishedVersions T files).foldl T.merge [] := by
  have hslot : (if VectorClock.isDeleted ((finishedVersions T files).foldl T.merge []) then files.deleted
      else files.current) ≠ none := by
    cases hdeleted : VectorClock.isDeleted ((finishedVersions T files).foldl T.merge []) with
    | true =>
      -- the first clock is of a deleted file
      cases hbase : (finishedVersions T files).foldl T.merge [] with
      | nil => simp [hbase, VectorClock.isDeleted] at hdeleted
      | cons c cs =>
        have hkey : c.key = ascii "delete" := by simpa [hbase, VectorClock.isDeleted] using hdeleted
        obtain ⟨file, -, -, hfile⟩ := mem_finished hL hS (c := c) (hbase ▸ List.mem_cons_self)
        simp [hfile hkey]
    | false =>
      intro hcurrent
      obtain ⟨file, hfile⟩ : ∃ file, files.deleted = some file := by
        refine Option.ne_none_iff_exists'.1 fun hnone => hfinished ?_
        simp_all [finishedFiles]
      have hbase : (finishedVersions T files).foldl T.merge [] = lookupVersion T file.mtime true := by
        simp_all [finishedVersions, hM file.mtime]
      rw [hbase, (lookupVersion_spec hS file.mtime true).2.2.2] at hdeleted
      exact absurd hdeleted (by simp)
  obtain ⟨file, hfile⟩ := Option.ne_none_iff_exists'.1 hslot
  exact ⟨_, by rw [read.openReader, hfile], rfl⟩

include hT

lemma mergedVersion_iff (hfinished : finishedFiles files ≠ []) :
    mergedVersion T files true = (finishedVersions T files).foldl T.merge [] ↔ Hidden files := by
  rw [mergedVersion_eq hT hS, Hidden]
  cases hin : files.inprogress with
  | none => simp
  | some file => simpa [hfinished] using merge_inprogress_iff hL hS file.mtime

lemma read_deleted_iff (hM : T.MergesIntoEmpty) {file : StampedFile} (hcurrent : files.current = none)
    (hdeleted : files.deleted = some file) : (∃ reading, read T name files [] = .accepted reading ∧
      reading.md.version = lookupVersion T file.mtime true) ↔ Hidden files := by
  have hfinished : finishedFiles files ≠ [] := by simp [finishedFiles, hdeleted]
  have hbase : (finishedVersions T files).foldl T.merge [] = lookupVersion T file.mtime true := by
    simp [finishedVersions, hcurrent, hdeleted, hM file.mtime]
  rw [← mergedVersion_iff hL hT hS hfinished, hbase, read, if_pos rfl]
  constructor
  · rintro ⟨reading, hread, hversion⟩
    exact (openReader_version hread).symm.trans hversion
  · intro h
    rw [h, ← hbase]
    exact openReader_finished hL hS hM hfinished

theorem unfinished_invisible_iff (hM : T.MergesIntoEmpty) :
    (∀ version, read T name files version = read T name (withoutInprogress files) version) ↔ Hidden files := by
  have hwithout : mergedVersion T (withoutInprogress files) true = (finishedVersions T files).foldl T.merge [] :=
    mergedVersion_eq hT hS (withoutInprogress files)
  by_cases hfinished : finishedFiles files = []
  · -- there is nothing to read, with or without the file in progress
    have hnone : files.current = none ∧ files.deleted = none := by simpa [finishedFiles] using hfinished
    have hopen (v : VectorClock) : read.openReader name files v = .refused := by
      rw [read.openReader, hnone.1, hnone.2, ite_self]
    refine iff_of_true (fun version => ?_) fun file _ => .inl hfinished
    have hopen' (v : VectorClock) : read.openReader name (withoutInprogress files) v = .refused := hopen v
    simp only [read, hopen, hopen', ite_self]
  · obtain ⟨reading, hopen, hreading⟩ := @openReader_finished T name files hL hS hM hfinished
    rw [← mergedVersion_iff hL hT hS hfinished]
    constructor
    · intro h
      have hread := h []
      rw [read, read, if_pos rfl, if_pos rfl, hwithout] at hread
      exact (openReader_version (hread.trans hopen)).symm.trans hreading
    · intro h version
      rw [read, read, h, hwithout]
      rfl

end Latest

section Examples

def place (v : VectorClock) (c : Clock) : VectorClock :=
  if ∃ d ∈ v, d.key = c.key ∧ c.time ≤ d.time then v
  else
    let others := v.filter fun d => d.key ≠ c.key
    others.takeWhile (fun d => c.time ≤ d.time) ++ c :: others.dropWhile fun d => c.time ≤ d.time

def latestFirst : TurboLib := { TurboLib.reference with merge := fun u v => v.foldl place u }

lemma mem_place {v : VectorClock} {c d : Clock} (h : d ∈ place v c) : d ∈ v ∨ d = c := by
  rw [place] at h
  split_ifs at h
  · exact .inl h
  · rcases List.mem_append.1 h with h | h
    · exact .inl (List.mem_of_mem_filter ((List.takeWhile_sublist _).subset h))
    · rcases List.mem_cons.1 h with rfl | h
      · exact .inr rfl
      · exact .inl (List.mem_of_mem_filter ((List.dropWhile_sublist _).subset h))

lemma place_upper {v : VectorClock} {c d : Clock} (h : d ∈ v ∨ d = c) :
    ∃ e ∈ place v c, e.key = d.key ∧ d.time ≤ e.time := by
  rw [place]
  split_ifs with hcovered
  · rcases h with h | rfl
    · exact ⟨d, h, rfl, UInt64.le_refl _⟩
    · exact hcovered
  · have hc : c ∈ (v.filter fun d => d.key ≠ c.key).takeWhile (fun d => c.time ≤ d.time) ++
        c :: (v.filter fun d => d.key ≠ c.key).dropWhile fun d => c.time ≤ d.time := by simp
    rcases h with h | rfl
    · by_cases hkey : d.key = c.key
      · refine ⟨c, hc, hkey.symm, ?_⟩
        have hearlier : ¬ c.time ≤ d.time := fun hle => hcovered ⟨d, h, hkey, hle⟩
        rw [UInt64.le_iff_toNat_le] at hearlier ⊢
        omega
      · refine ⟨d, ?_, rfl, UInt64.le_refl _⟩
        have hother : d ∈ v.filter fun d => d.key ≠ c.key := List.mem_filter.2 ⟨h, by simpa using hkey⟩
        rw [← List.takeWhile_append_dropWhile (p := fun d => decide (c.time ≤ d.time))
          (l := v.filter fun d => d.key ≠ c.key)] at hother
        rcases List.mem_append.1 hother with hother | hother
        · exact List.mem_append_left _ hother
        · exact List.mem_append_right _ (List.mem_cons_of_mem _ hother)
    · exact ⟨d, hc, rfl, UInt64.le_refl _⟩

lemma latestFirst_mergesLatest : latestFirst.MergesLatest where
  mem u v c hc := by
    simp only [latestFirst] at hc
    induction v generalizing u with
    | nil => exact .inl hc
    | cons d v ih =>
      rcases ih (place u d) hc with hc | hc
      · rcases mem_place hc with hc | rfl
        · exact .inl hc
        · exact .inr List.mem_cons_self
      · exact .inr (List.mem_cons_of_mem _ hc)
  upper u v _ c hc := by
    simp only [latestFirst]
    clear * - hc
    induction v generalizing u c with
    | nil => exact ⟨c, by simpa using hc, rfl, UInt64.le_refl _⟩
    | cons d v ih =>
      have hnext : ∃ e ∈ place u d ++ v, e.key = c.key ∧ c.time ≤ e.time := by
        have hsplit : (c ∈ u ∨ c = d) ∨ c ∈ v := by simpa [or_assoc] using hc
        rcases hsplit with hsplit | hrest
        · obtain ⟨e, he, hkey, htime⟩ := place_upper hsplit
          exact ⟨e, List.mem_append_left _ he, hkey, htime⟩
        · exact ⟨c, List.mem_append_right _ hrest, rfl, UInt64.le_refl _⟩
      obtain ⟨e, he, hkey, htime⟩ := hnext
      obtain ⟨f, hf, hkey', htime'⟩ := ih (place u d) e he
      exact ⟨f, hf, hkey'.trans hkey, UInt64.le_trans htime htime'⟩
  covered vs v hv := by
    simp only [latestFirst] at hv ⊢
    induction v with
    | nil => rfl
    | cons c v ih =>
      obtain ⟨d, hd, hkey, htime, -⟩ := hv c (by simp)
      rw [List.foldl_cons, place, if_pos ⟨d, hd, hkey, htime⟩]
      exact ih fun e he => hv e (List.mem_cons_of_mem _ he)

lemma latestFirst_mergesIntoEmpty : latestFirst.MergesIntoEmpty := by
  have hne : ascii "delete" ≠ ascii "sec" := sec_ne_delete.symm
  intro t isDeleted
  cases isDeleted with
  | false =>
    have h : lookupVersion latestFirst t false = [⟨ascii "sec", t, 0⟩] :=
      lookupVersion_false TurboLib.reference_stamps t
    rw [h]
    rfl
  | true =>
    have h : lookupVersion latestFirst t true = [⟨ascii "delete", t, 0⟩, ⟨ascii "sec", t, 0⟩] :=
      lookupVersion_true TurboLib.reference_stamps t
    rw [h]
    simp [latestFirst, place, hne]

lemma latestFirst_base64 : latestFirst.Base64 := ⟨TurboLib.reference_base64.alphabet, TurboLib.reference_base64.decode⟩

lemma latestFirst_stamps : latestFirst.Stamps where
  width := TurboLib.reference_stamps.width
  sec := TurboLib.reference_stamps.sec
  delete := TurboLib.reference_stamps.delete

theorem unfinished_invisible_iff_example :
    read latestFirst (ascii "key") { current := some ⟨[97], 5⟩, inprogress := some ⟨[98], 4⟩ } [] =
      read latestFirst (ascii "key") { current := some ⟨[97], 5⟩ } [] := by
  refine (unfinished_invisible_iff latestFirst_mergesLatest latestFirst_base64 latestFirst_stamps
    latestFirst_mergesIntoEmpty).2 ?_ []
  intro file hfile
  obtain rfl := Option.some.inj hfile
  exact .inr ⟨⟨[97], 5⟩, by simp [finishedFiles], by decide⟩

theorem unfinished_visible :
    ¬ ∀ version, read latestFirst (ascii "key") { current := some ⟨[97], 5⟩, inprogress := some ⟨[98], 9⟩ } version =
      read latestFirst (ascii "key") { current := some ⟨[97], 5⟩ } version := by
  intro h
  exact absurd (h []) (by decide +kernel)

end Examples

end SimpleFileStore

end Turbopump
