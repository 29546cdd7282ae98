import Turbopump.Lib.Xor
import Turbopump.Storage.FileStore

/-! The invariant of a store that is only written through write streams: which files its key directories
hold, which of them are open, and what opening, writing and committing a stream change. -/

namespace Turbopump

open VectorClock (IsVersion)

def Writestream.vstr (T : TurboLib) (w : Writestream) : Bytes := VectorClock.toString T w.md.version

namespace FileStore

variable {T : TurboLib} {hasher : Bytes → Bytes}

section Names

variable {v : Bytes}

lemma filepath_eq (hv : IsVersion T v) (name : Bytes) : filepath name v = dirpath name ++ [v] := by
  have hne : v ≠ [] := List.ne_nil_of_mem hv.comma
  rw [filepath, components_append, components_name hv.slash hne hv.ne_dot, dirpath]

lemma tempname_eq (hv : IsVersion T v) (name : Bytes) : tempname name v = dirpath name ++ [v ++ [126]] := by
  have hslash : 47 ∉ v ++ [126] := by simp [hv.slash]
  have hdot : v ++ [126] ≠ [46] := fun h => by
    have : (46 : UInt8) = 126 := by
      have := congrArg List.getLast? h
      simpa using this.symm
    exact absurd this (by decide)
  rw [tempname, components_append, components_name hslash (by simp) hdot, dirpath]

lemma versionOf_version (hT : T.Base64) (hv : IsVersion T v) (inprogress : Bool) :
    versionOf inprogress v = some v := by
  simp [versionOf, hv.comma, hv.getLast? hT]

lemma versionOf_temp (hv : IsVersion T v) (inprogress : Bool) :
    versionOf inprogress (v ++ [126]) = if inprogress then some v else none := by
  simp [versionOf, hv.comma]

lemma temp_ne_version (hT : T.Base64) {u : Bytes} (hu : IsVersion T u) : v ++ [126] ≠ u := by
  rintro rfl
  exact hu.getLast? hT (by simp)

end Names

/-- Keys whose directories do not get in each other's way: no two share one, and the directory of a key
beneath another key is not taken for a version. -/
structure KeySpace (keys : Set Bytes) : Prop where
  apart : ∀ n ∈ keys, ∀ n' ∈ keys, dirpath n = dirpath n' → n = n'
  nested : ∀ n ∈ keys, ∀ n' ∈ keys, ∀ c, dirpath n ++ [c] <+: dirpath n' → 44 ∉ c

structure Opened (T : TurboLib) (keys : Set Bytes) (fs : FileSystem) (w : Writestream) (inode : ℕ) : Prop where
  name : w.name ∈ keys
  version : IsVersion T (w.vstr T)
  clock : VectorClock.ofName T (w.vstr T) = w.md.version
  path : w.writer.path = tempname w.name (w.vstr T)
  writer : w.writer.inode = some inode
  linked : fs.lookup (dirpath w.name) (w.vstr T ++ [126]) = some inode
  offset : w.writer.offset = (fs.file inode).content.length
  md : (fs.file inode).md = mdToString w.md

structure Tidy (T : TurboLib) (keys : Set Bytes) (fs : FileSystem) (live : ℕ → Option Writestream) : Prop where
  subdirs : ∀ n ∈ keys, ∀ c, fs.HasDir (dirpath n ++ [c]) → 44 ∉ c
  linked : ∀ d nm k, fs.lookup d nm = some k → k < fs.inodes.length
  single : ∀ d nm d' nm' k, fs.lookup d nm = some k → fs.lookup d' nm' = some k → d = d' ∧ nm = nm'
  opened : ∀ i w, live i = some w → ∃ inode, Opened T keys fs w inode
  distinct : ∀ i j w w', live i = some w → live j = some w' → w.name = w'.name → w.vstr T = w'.vstr T → i = j
  entries : ∀ n ∈ keys, ∀ nm k, fs.lookup (dirpath n) nm = some k →
    IsVersion T nm ∨ ∃ i w, live i = some w ∧ w.name = n ∧ nm = w.vstr T ++ [126]

lemma KeySpace.single (n : Bytes) : KeySpace {n} where
  apart := by
    rintro m rfl m' rfl -
    rfl
  nested := by
    rintro m rfl m' rfl c hpre
    simpa using hpre.length_le

structure Vacant (keys : Set Bytes) (fs : FileSystem) : Prop where
  linked : ∀ d nm k, fs.lookup d nm = some k → k < fs.inodes.length
  single : ∀ d nm d' nm' k, fs.lookup d nm = some k → fs.lookup d' nm' = some k → d = d' ∧ nm = nm'
  files : ∀ n ∈ keys, ∀ nm, fs.lookup (dirpath n) nm = none
  subdirs : ∀ n ∈ keys, ∀ c, fs.HasDir (dirpath n ++ [c]) → 44 ∉ c

lemma Vacant.tidy {keys : Set Bytes} {fs : FileSystem} (h : Vacant keys fs) : Tidy T keys fs fun _ => none where
  subdirs := h.subdirs
  linked := h.linked
  single := h.single
  opened := by simp
  distinct := by simp
  entries := by
    intro n hn nm k hk
    simp [h.files n hn] at hk

lemma Vacant.empty (keys : Set Bytes) : Vacant keys .empty := by
  have hnone : ∀ d nm, FileSystem.empty.lookup d nm = none := by
    intro d nm
    by_cases hd : [] = d <;> simp [FileSystem.empty, FileSystem.lookup, SortedMap.get_insert, hd]
  refine ⟨by simp [hnone], by simp [hnone], fun n _ nm => hnone _ nm, fun n _ c => ?_⟩
  simp [FileSystem.HasDir, FileSystem.empty, SortedMap.get_insert]

/-- A key's directory as the store makes it: files are versions, finished or not, and no directory beneath it is
taken for one. -/
structure KeyDir (T : TurboLib) (fs : FileSystem) (n : Bytes) : Prop where
  subdirs : ∀ c, fs.HasDir (dirpath n ++ [c]) → 44 ∉ c
  entries : ∀ nm k, fs.lookup (dirpath n) nm = some k → IsVersion T nm ∨ ∃ u, IsVersion T u ∧ nm = u ++ [126]

def stored (fs : FileSystem) (name v : Bytes) : Option File :=
  if v ∈ versions fs name false then (fs.find (filepath name v)).map fs.file else none

section Versions

variable {keys : Set Bytes} {fs : FileSystem} {live : ℕ → Option Writestream} {n v : Bytes}

lemma Tidy.keyDir (h : Tidy T keys fs live) (hn : n ∈ keys) : KeyDir T fs n where
  subdirs := h.subdirs n hn
  entries := by
    intro nm k hk
    rcases h.entries n hn nm k hk with hv | ⟨i, w, hw, -, rfl⟩
    · exact Or.inl hv
    · obtain ⟨inode, ho⟩ := h.opened i w hw
      exact Or.inr ⟨_, ho.version, rfl⟩

lemma KeyDir.versions_eq (h : KeyDir T fs n) (inprogress : Bool) :
    versions fs n inprogress = (fs.fileNames (dirpath n)).filterMap (versionOf inprogress) := by
  have hdirs : (fs.dirNames (dirpath n)).filterMap (versionOf inprogress) = [] := by
    refine List.filterMap_eq_nil_iff.2 fun c hc => ?_
    simp [versionOf, h.subdirs c (FileSystem.mem_dirNames.1 hc)]
  simp only [versions, FileSystem.list]
  cases hd : fs.dirs.get (dirpath n) with
  | none => simp [FileSystem.fileNames, hd]
  | some entries => simp [hdirs]

lemma KeyDir.mem_versions (hT : T.Base64) (h : KeyDir T fs n) :
    v ∈ versions fs n false ↔ IsVersion T v ∧ ∃ k, fs.lookup (dirpath n) v = some k := by
  simp only [h.versions_eq, List.mem_filterMap, FileSystem.mem_fileNames]
  constructor
  · rintro ⟨nm, ⟨k, hk⟩, hv⟩
    rcases h.entries nm k hk with hnm | ⟨u, hu, rfl⟩
    · rw [versionOf_version hT hnm, Option.some.injEq] at hv
      exact hv ▸ ⟨hnm, k, hk⟩
    · simp [versionOf_temp hu] at hv
  · rintro ⟨hv, k, hk⟩
    exact ⟨v, ⟨k, hk⟩, versionOf_version hT hv false⟩

lemma KeyDir.mem_versions_inprogress (hT : T.Base64) (h : KeyDir T fs n) :
    v ∈ versions fs n true ↔
      v ∈ versions fs n false ∨ IsVersion T v ∧ ∃ k, fs.lookup (dirpath n) (v ++ [126]) = some k := by
  rw [h.mem_versions hT, h.versions_eq]
  simp only [List.mem_filterMap, FileSystem.mem_fileNames]
  constructor
  · rintro ⟨nm, ⟨k, hk⟩, hv⟩
    rcases h.entries nm k hk with hnm | ⟨u, hu, rfl⟩
    · rw [versionOf_version hT hnm, Option.some.injEq] at hv
      exact Or.inl (hv ▸ ⟨hnm, k, hk⟩)
    · rw [versionOf_temp hu, if_pos rfl, Option.some.injEq] at hv
      exact Or.inr (hv ▸ ⟨hu, k, hk⟩)
  · rintro (⟨hv, k, hk⟩ | ⟨hv, k, hk⟩)
    · exact ⟨v, ⟨k, hk⟩, versionOf_version hT hv true⟩
    · exact ⟨v ++ [126], ⟨k, hk⟩, by rw [versionOf_temp hv, if_pos rfl]⟩

lemma KeyDir.isVersion (hT : T.Base64) (h : KeyDir T fs n) (hv : v ∈ versions fs n true) : IsVersion T v := by
  rcases (h.mem_versions_inprogress hT).1 hv with hv | hv
  · exact ((h.mem_versions hT).1 hv).1
  · exact hv.1

lemma Tidy.versions_eq (h : Tidy T keys fs live) (hn : n ∈ keys) (inprogress : Bool) :
    versions fs n inprogress = (fs.fileNames (dirpath n)).filterMap (versionOf inprogress) :=
  (h.keyDir hn).versions_eq inprogress

lemma Tidy.mem_versions (hT : T.Base64) (h : Tidy T keys fs live) (hn : n ∈ keys) :
    v ∈ versions fs n false ↔ IsVersion T v ∧ ∃ k, fs.lookup (dirpath n) v = some k :=
  (h.keyDir hn).mem_versions hT

lemma Tidy.mem_versions_inprogress (hT : T.Base64) (h : Tidy T keys fs live) (hn : n ∈ keys) :
    v ∈ versions fs n true ↔
      v ∈ versions fs n false ∨ IsVersion T v ∧ ∃ k, fs.lookup (dirpath n) (v ++ [126]) = some k :=
  (h.keyDir hn).mem_versions_inprogress hT

lemma KeyDir.versions_nodup (h : KeyDir T fs n) : (versions fs n false).Nodup := by
  rw [h.versions_eq]
  refine List.Nodup.filterMap (fun a a' b ha ha' => ?_) FileSystem.fileNames_nodup
  have hplain : ∀ x, b ∈ versionOf false x → x = b := by
    intro x hx
    simp only [versionOf] at hx
    split at hx
    · simp at hx
    · split at hx
      · simp at hx
      · simpa using hx
  rw [hplain a ha, hplain a' ha']

lemma Tidy.versions_nodup (h : Tidy T keys fs live) (hn : n ∈ keys) : (versions fs n false).Nodup :=
  (h.keyDir hn).versions_nodup

lemma KeyDir.stored_eq (hT : T.Base64) (h : KeyDir T fs n) (hv : IsVersion T v) :
    stored fs n v = (fs.lookup (dirpath n) v).map fs.file := by
  simp only [stored, filepath_eq hv, FileSystem.find_concat]
  split_ifs with hk
  · rfl
  · have : fs.lookup (dirpath n) v = none := Option.eq_none_iff_forall_ne_some.2 fun k hk' =>
      hk ((h.mem_versions hT).2 ⟨hv, k, hk'⟩)
    rw [this]
    rfl

lemma KeyDir.stored_none (hT : T.Base64) (h : KeyDir T fs n) (hv : ¬ IsVersion T v) : stored fs n v = none :=
  if_neg fun hmem => hv ((h.mem_versions hT).1 hmem).1

lemma Tidy.stored_eq (hT : T.Base64) (h : Tidy T keys fs live) (hn : n ∈ keys) (hv : IsVersion T v) :
    stored fs n v = (fs.lookup (dirpath n) v).map fs.file :=
  (h.keyDir hn).stored_eq hT hv

lemma Tidy.stored_none (hT : T.Base64) (h : Tidy T keys fs live) (hn : n ∈ keys) (hv : ¬ IsVersion T v) :
    stored fs n v = none :=
  (h.keyDir hn).stored_none hT hv

lemma Tidy.stored_congr (hT : T.Base64) {fs' : FileSystem} {live' : ℕ → Option Writestream}
    (h : Tidy T keys fs live) (h' : Tidy T keys fs' live') (hn : n ∈ keys)
    (heq : ∀ u, IsVersion T u → (fs'.lookup (dirpath n) u).map fs'.file = (fs.lookup (dirpath n) u).map fs.file)
    (u : Bytes) : stored fs' n u = stored fs n u := by
  by_cases hu : IsVersion T u
  · rw [h'.stored_eq hT hn hu, h.stored_eq hT hn hu, heq u hu]
  · rw [h'.stored_none hT hn hu, h.stored_none hT hn hu]

lemma Tidy.mem_versions_iff_stored (hT : T.Base64) (h : Tidy T keys fs live) (hn : n ∈ keys) :
    v ∈ versions fs n false ↔ ∃ file, stored fs n v = some file := by
  constructor
  · intro hv
    obtain ⟨hver, k, hk⟩ := (h.mem_versions hT hn).1 hv
    exact ⟨fs.file k, by rw [h.stored_eq hT hn hver, hk]; rfl⟩
  · rintro ⟨file, hfile⟩
    by_contra hv
    simp [stored, hv] at hfile

lemma Tidy.mem_versions_congr (hT : T.Base64) {fs' : FileSystem} {live' : ℕ → Option Writestream}
    (h : Tidy T keys fs live) (h' : Tidy T keys fs' live') (hn : n ∈ keys) (heq : stored fs' n v = stored fs n v) :
    v ∈ versions fs' n false ↔ v ∈ versions fs n false := by
  rw [h.mem_versions_iff_stored hT hn, h'.mem_versions_iff_stored hT hn, heq]

end Versions

end FileStore

end Turbopump
