import Turbopump.Lib.Xor
import Turbopump.Storage.StoreSessions

/-! `enumerate` and `versions` of the store: two ways to go through the same directories. -/

namespace Turbopump

open FilePaths (IsComponent)
open SimpleStore (fullPath shortname Normal)

namespace FileStore

variable (hasher : Bytes → Bytes) (homedir : Bytes)

def line (size : ℕ) (name : Bytes) : Bytes := decimal size ++ 58 :: name

/-- What `enumerate` reports of one directory: the name of the key, its metadata, and the set of lines for its files.
The copies are those of the file that is listed first. -/
def describe (fs : FileSystem) (p : Path) : Option (Bytes × KeyMetadata × List Bytes) :=
  let names := fs.fileNames p
  let size name := fs.size (p ++ [name])
  match names with
  | [] => none
  | first :: _ =>
    let md := mdFromString {} (match fs.lookup p first with
      | none => []
      | some inode => (fs.file inode).md)
    some (shortname homedir (fullPath homedir p),
      { md with digest := xorAll (names.map fun name => Writestream.digest hasher name (size name)) },
      ((names.map fun name => line (size name) name).dedup).insertionSort (· ≤ ·))

def enumerate (fs : FileSystem) (limit : ℕ) (under : Bytes) : List (Bytes × KeyMetadata × List Bytes) :=
  ((fs.dirs.keys.filter fun p => components under <+: p ∧ p ≠ components under).filterMap
    (describe hasher homedir fs)).take (max 1 limit)

structure Reports (fs : FileSystem) (entry : Bytes × KeyMetadata × List Bytes) : Prop where
  finished : versions fs entry.1 false ≠ []
  lines : entry.2.2.Perm
    ((versions fs entry.1 false).map fun v => line (fs.size (filepath entry.1 v)) v)
  digest : entry.2.1.digest =
    xorAll ((versions fs entry.1 false).map fun v => Writestream.digest hasher v (fs.size (filepath entry.1 v)))

end FileStore

namespace StoreSessions

open FileStore

variable (hasher : Bytes → Bytes) (homedir : Bytes) (limit : ℕ) (s : StoreSessions)

/-- What is reported are keys with their finished versions, and every key that has some is reported: it has been
written under this name, or the name is that of its directory. -/
structure Agrees : Prop where
  reported : ∀ entry ∈ enumerate hasher homedir s.fs limit [], Reports hasher s.fs entry
  found : ∀ name, name ∈ s.names ∨ Normal name → versions s.fs name false ≠ [] →
    ∃ entry ∈ enumerate hasher homedir s.fs limit [], entry.1 = name

/-- Below the home directory there are no files but finished versions, and no directories that look like one, and keys
have the names of their directories. -/
structure OnlyVersions : Prop where
  homedir : (∃ p ≠ [], s.fs.fileNames p ≠ []) → homedir.getLast? ≠ some 47
  files : ∀ p ≠ [], ∀ name ∈ s.fs.fileNames p, versionOf false name = some name
  directories : ∀ p ≠ [], ∀ c, s.fs.HasDir (p ++ [c]) → versionOf false c = none
  root : ∀ nm, nm ∈ s.fs.fileNames [] ∨ s.fs.HasDir [nm] → versionOf false nm = none
  names : ∀ name ∈ s.names, ∀ nm ∈ s.fs.fileNames (components name), versionOf false nm = some nm → Normal name

end StoreSessions

namespace FileStore

variable {hasher : Bytes → Bytes} {homedir name v : Bytes} {fs : FileSystem} {p : Path}
  {entry : Bytes × KeyMetadata × List Bytes}

lemma line_name (size : ℕ) (name : Bytes) : ((line size name).dropWhile (· ≠ 58)).drop 1 = name := by
  have hdigits : ∀ c ∈ decimal size, decide (c ≠ 58) := by
    intro c hc
    rw [decide_eq_true_iff]
    rintro rfl
    exact absurd (VectorClock.mem_decimal hc) (by decide)
  rw [line, VectorClock.dropWhile_append_stop hdigits (by simp)]
  rfl

lemma versionOf_eq {u : Bytes} (h : versionOf false u = some v) : u = v := by
  simp only [versionOf, Bool.false_eq_true, if_false] at h
  split_ifs at h
  exact Option.some.inj h

lemma hasDir_of_fileNames (h : fs.fileNames p ≠ []) : fs.HasDir p := by
  obtain ⟨nm, hnm⟩ := List.exists_mem_of_ne_nil _ h
  obtain ⟨k, hk⟩ := FileSystem.mem_fileNames.1 hnm
  exact FileSystem.hasDir_of_lookup hk

lemma mem_versions_cases (h : v ∈ versions fs name false) : versionOf false v = some v ∧
    (v ∈ fs.fileNames (components name) ∨ fs.HasDir (components name ++ [v])) := by
  obtain ⟨u, hu, hv⟩ := List.mem_filterMap.1 h
  obtain rfl := versionOf_eq hv
  refine ⟨hv, ?_⟩
  rw [FileSystem.list] at hu
  split at hu
  · simp at hu
  · exact (List.mem_append.1 hu).imp_right FileSystem.mem_dirNames.1

lemma mem_versions_of_entry (h : v ∈ fs.fileNames (components name) ∨ fs.HasDir (components name ++ [v]))
    (hr : fs.Rooted) (hv : versionOf false v = some v) : v ∈ versions fs name false := by
  have hdir : fs.HasDir (components name) := by
    rcases h with h | h
    · exact hasDir_of_fileNames (List.ne_nil_of_mem h)
    · exact hr _ _ h
  obtain ⟨entries, hentries⟩ := Option.isSome_iff_exists.1 hdir
  refine List.mem_filterMap.2 ⟨v, ?_, hv⟩
  rw [FileSystem.list, dirpath, hentries]
  exact List.mem_append.2 (h.imp_right FileSystem.mem_dirNames.2)

lemma versions_eq_fileNames (hfiles : ∀ nm ∈ fs.fileNames (components name), versionOf false nm = some nm)
    (hdirs : ∀ c, fs.HasDir (components name ++ [c]) → versionOf false c = none) :
    versions fs name false = fs.fileNames (components name) := by
  rw [versions, FileSystem.list, dirpath]
  cases hdir : fs.dirs.get (components name) with
  | none => simp [FileSystem.fileNames, hdir]
  | some entries =>
    have hnone : (fs.dirNames (components name)).filterMap (versionOf false) = [] :=
      List.filterMap_eq_nil_iff.2 fun c hc => hdirs c (FileSystem.mem_dirNames.1 hc)
    have hall : (fs.fileNames (components name)).filterMap (versionOf false) = fs.fileNames (components name) := by
      rw [List.filterMap_congr hfiles, List.filterMap_some]
    simp only [List.filterMap_append, hnone, hall, List.append_nil]

lemma describe_none (h : fs.fileNames p = []) : describe hasher homedir fs p = none := by
  simp only [describe, h]

lemma exists_describe (h : fs.fileNames p ≠ []) : ∃ entry, describe hasher homedir fs p = some entry := by
  obtain ⟨first, rest, hnames⟩ := List.exists_cons_of_ne_nil h
  simp only [describe, hnames]
  exact ⟨_, rfl⟩

lemma describe_some (h : describe hasher homedir fs p = some entry) :
    fs.fileNames p ≠ [] ∧ entry.1 = shortname homedir (fullPath homedir p) ∧
      entry.2.1.digest = xorAll ((fs.fileNames p).map fun nm => Writestream.digest hasher nm (fs.size (p ++ [nm]))) ∧
      entry.2.2.Perm ((fs.fileNames p).map fun nm => line (fs.size (p ++ [nm])) nm) := by
  cases hnames : fs.fileNames p with
  | nil => simp [describe_none hnames] at h
  | cons first rest =>
    simp only [describe, hnames] at h
    obtain rfl := Option.some.inj h
    refine ⟨by simp, rfl, rfl, (List.perm_insertionSort _ _).trans ?_⟩
    -- two files have two names, and two lines
    rw [List.dedup_eq_self.2]
    refine List.Nodup.map_on (fun x _ y _ hxy => ?_) (hnames ▸ FileSystem.fileNames_nodup)
    rw [← line_name (fs.size (p ++ [x])) x, hxy, line_name]

lemma mem_enumerate {limit : ℕ} (hlimit : fs.dirs.keys.length ≤ limit) : entry ∈ enumerate hasher homedir fs limit [] ↔
    ∃ p ≠ [], describe hasher homedir fs p = some entry := by
  have hlength := (List.length_filterMap_le (describe hasher homedir fs) (fs.dirs.keys.filter fun p =>
    components [] <+: p ∧ p ≠ components [])).trans ((List.length_filter_le _ _).trans hlimit)
  rw [enumerate, List.take_of_length_le (hlength.trans (le_max_right _ _)), List.mem_filterMap]
  constructor
  · rintro ⟨p, hp, hentry⟩
    have hne := (List.mem_filter.1 hp).2
    rw [decide_eq_true_iff] at hne
    exact ⟨p, hne.2, hentry⟩
  · rintro ⟨p, hne, hentry⟩
    have hdir := hasDir_of_fileNames (describe_some hentry).1
    refine ⟨p, List.mem_filter.2 ⟨SortedMap.mem_keys.2 (Option.isSome_iff_exists.1 hdir), ?_⟩, hentry⟩
    rw [decide_eq_true_iff]
    exact ⟨List.nil_prefix, hne⟩

lemma Reports.fileNames_perm (h : Reports hasher fs entry) (hentry : describe hasher homedir fs p = some entry) :
    (fs.fileNames p).Perm (versions fs entry.1 false) := by
  have hperm := ((describe_some hentry).2.2.2.symm.trans h.lines).map fun l => (l.dropWhile (· ≠ 58)).drop 1
  simpa only [List.map_map, Function.comp_def, line_name, List.map_id'] using hperm

lemma normal_intercalate (h : fs.Sane) (hp : fs.HasDir p) :
    components (List.intercalate [47] p) = p ∧ Normal (List.intercalate [47] p) := by
  have hcomponents := FilePaths.components_intercalate fun c hc => (h.dirs p hp c hc).1
  refine ⟨hcomponents, by rw [hcomponents], ?_⟩
  rw [hcomponents]
  exact fun hup => (h.dirs p hp _ hup).2 rfl

lemma reports_of_versions (hs : fs.Sane) (hhome : homedir.getLast? ≠ some 47)
    (hfiles : ∀ nm ∈ fs.fileNames p, versionOf false nm = some nm)
    (hdirs : ∀ c, fs.HasDir (p ++ [c]) → versionOf false c = none)
    (hentry : describe hasher homedir fs p = some entry) :
    entry.1 = List.intercalate [47] p ∧ Reports hasher fs entry := by
  obtain ⟨hnames, hshort, hdigest, hlines⟩ := describe_some hentry
  rw [SimpleStore.shortname_fullPath, if_neg hhome] at hshort
  have hcomponents : components entry.1 = p := by
    rw [hshort, (normal_intercalate hs (hasDir_of_fileNames hnames)).1]
  have hversions : versions fs entry.1 false = fs.fileNames p := by
    have heq := @versions_eq_fileNames entry.1 fs
    rw [hcomponents] at heq
    exact heq hfiles hdirs
  have hpath (nm : Bytes) (hnm : nm ∈ fs.fileNames p) : filepath entry.1 nm = p ++ [nm] := by
    obtain ⟨k, hk⟩ := FileSystem.mem_fileNames.1 hnm
    obtain ⟨hslash, hne, hdot⟩ := hs.files p nm k hk
    rw [filepath, components_append, hcomponents, components_name hslash hne hdot]
  refine ⟨hshort, hversions ▸ hnames, ?_, ?_⟩
  · rw [hversions]
    refine hlines.trans (.of_eq (List.map_congr_left fun nm hnm => ?_))
    rw [hpath nm hnm]
  · rw [hversions, hdigest]
    refine congrArg xorAll (List.map_congr_left fun nm hnm => ?_)
    rw [hpath nm hnm]

end FileStore

namespace StoreSessions

open FileStore

variable {hasher : Bytes → Bytes} {homedir name : Bytes} {limit : ℕ} {s : StoreSessions} {p : Path}

section Agrees

variable (hs : s.fs.Sane) (hlimit : s.fs.dirs.keys.length ≤ limit) (h : s.Agrees hasher homedir limit)
include hlimit h

lemma Agrees.files (hp : p ≠ []) : ∀ nm ∈ s.fs.fileNames p, versionOf false nm = some nm := by
  intro nm hnm
  obtain ⟨entry, hentry⟩ := @exists_describe hasher homedir s.fs p (List.ne_nil_of_mem hnm)
  have hreport := h.reported entry ((mem_enumerate hlimit).2 ⟨p, hp, hentry⟩)
  exact (mem_versions_cases ((hreport.fileNames_perm hentry).subset hnm)).1

include hs

lemma Agrees.no_slash (hfiles : ∃ p ≠ [], s.fs.fileNames p ≠ []) : homedir.getLast? ≠ some 47 := by
  intro hslash
  have hlonger (k : ℕ) : ∃ p ≠ [], s.fs.fileNames p ≠ [] ∧ k ≤ (List.intercalate [47] p).length := by
    induction k with
    | zero =>
      obtain ⟨p, hp, hnames⟩ := hfiles
      exact ⟨p, hp, hnames, Nat.zero_le _⟩
    | succ k ih =>
      obtain ⟨p, hp, hnames, hk⟩ := ih
      obtain ⟨hcomponents, hnormal⟩ := normal_intercalate hs (hasDir_of_fileNames hnames)
      obtain ⟨nm, hnm⟩ := List.exists_mem_of_ne_nil _ hnames
      have hversions : nm ∈ versions s.fs (List.intercalate [47] p) false :=
        mem_versions_of_entry (.inl (by rwa [hcomponents])) hs.rooted (h.files hlimit hp nm hnm)
      obtain ⟨entry, hmem, hname⟩ := h.found _ (.inr hnormal) (List.ne_nil_of_mem hversions)
      obtain ⟨q, hq, hentry⟩ := (mem_enumerate hlimit).1 hmem
      obtain ⟨hnames', hshort, -⟩ := describe_some hentry
      rw [SimpleStore.shortname_fullPath, if_pos hslash, hname] at hshort
      have hne : List.intercalate [47] p ≠ [] := by
        intro hnil
        rw [hnil] at hcomponents
        exact hp hcomponents.symm
      have hpos := List.length_pos_of_ne_nil hne
      have hlength := congrArg List.length hshort
      rw [List.length_drop] at hlength
      exact ⟨q, hq, hnames', by omega⟩
  -- but there is a longest name
  obtain ⟨p, hp, hnames, hk⟩ := hlonger (1 + (s.fs.dirs.keys.map fun p => (List.intercalate [47] p).length).sum)
  obtain ⟨entries, hentries⟩ := Option.isSome_iff_exists.1 (hasDir_of_fileNames hnames)
  have hle := List.le_sum_of_mem (List.mem_map_of_mem (f := fun p => (List.intercalate [47] p).length)
    (SortedMap.mem_keys.2 ⟨entries, hentries⟩))
  omega

lemma Agrees.name_eq {entry : Bytes × KeyMetadata × List Bytes}
    (hentry : describe hasher homedir s.fs p = some entry) (hp : p ≠ []) :
    entry.1 = List.intercalate [47] p ∧ components entry.1 = p := by
  obtain ⟨hnames, hshort, -⟩ := describe_some hentry
  rw [SimpleStore.shortname_fullPath, if_neg (h.no_slash hs hlimit ⟨p, hp, hnames⟩)] at hshort
  exact ⟨hshort, by rw [hshort, (normal_intercalate hs (hasDir_of_fileNames hnames)).1]⟩

lemma Agrees.directories (hp : p ≠ []) {c : Bytes} (hc : s.fs.HasDir (p ++ [c])) : versionOf false c = none := by
  by_contra hversion
  obtain ⟨v, hv⟩ := Option.ne_none_iff_exists'.1 hversion
  obtain rfl := versionOf_eq hv
  have hdir := hs.rooted p [c] hc
  obtain ⟨hcomponents, hnormal⟩ := normal_intercalate hs hdir
  have hlist : versions s.fs (List.intercalate [47] p) false =
      (s.fs.fileNames p).filterMap (versionOf false) ++ (s.fs.dirNames p).filterMap (versionOf false) := by
    obtain ⟨entries, hentries⟩ := Option.isSome_iff_exists.1 hdir
    rw [versions, FileSystem.list, dirpath, hcomponents, hentries, List.filterMap_append]
  have hall : (s.fs.fileNames p).filterMap (versionOf false) = s.fs.fileNames p := by
    rw [List.filterMap_congr (h.files hlimit hp), List.filterMap_some]
  have hmem : c ∈ (s.fs.dirNames p).filterMap (versionOf false) :=
    List.mem_filterMap.2 ⟨c, FileSystem.mem_dirNames.2 hc, hv⟩
  have hversions : versions s.fs (List.intercalate [47] p) false ≠ [] := by
    rw [hlist]
    exact List.ne_nil_of_mem (List.mem_append_right _ hmem)
  obtain ⟨entry, hentries, hname⟩ := h.found _ (.inr hnormal) hversions
  obtain ⟨q, hq, hentry⟩ := (mem_enumerate hlimit).1 hentries
  have hqp : q = p := by
    rw [← (h.name_eq hs hlimit hentry hq).2, hname, hcomponents]
  -- the report has a line for each file, and the version that is a directory has none
  have hlength := ((h.reported entry hentries).fileNames_perm hentry).length_eq
  rw [hqp, hname, hlist, hall, List.length_append] at hlength
  exact absurd (List.length_pos_of_mem hmem) (by omega)

lemma Agrees.root {nm : Bytes} (hnm : nm ∈ s.fs.fileNames [] ∨ s.fs.HasDir [nm]) : versionOf false nm = none := by
  by_contra hversion
  obtain ⟨v, hv⟩ := Option.ne_none_iff_exists'.1 hversion
  obtain rfl := versionOf_eq hv
  have hversions : versions s.fs [] false ≠ [] := List.ne_nil_of_mem (mem_versions_of_entry hnm hs.rooted hv)
  obtain ⟨entry, hmem, hname⟩ := h.found [] (.inr ⟨rfl, by simp [components]⟩) hversions
  obtain ⟨q, hq, hentry⟩ := (mem_enumerate hlimit).1 hmem
  have hcomponents := (h.name_eq hs hlimit hentry hq).2
  rw [hname] at hcomponents
  exact hq hcomponents.symm

lemma Agrees.names (hname : name ∈ s.names) {nm : Bytes} (hnm : nm ∈ s.fs.fileNames (components name))
    (hv : versionOf false nm = some nm) : Normal name := by
  have hversions : versions s.fs name false ≠ [] := List.ne_nil_of_mem (mem_versions_of_entry (.inl hnm) hs.rooted hv)
  obtain ⟨entry, hmem, rfl⟩ := h.found name (.inl hname) hversions
  obtain ⟨q, hq, hentry⟩ := (mem_enumerate hlimit).1 hmem
  rw [(h.name_eq hs hlimit hentry hq).1]
  exact (normal_intercalate hs (hasDir_of_fileNames (describe_some hentry).1)).2

end Agrees

section OnlyVersions

variable (hs : s.fs.Sane) (h : s.OnlyVersions homedir)
include hs h

lemma OnlyVersions.reports {entry : Bytes × KeyMetadata × List Bytes} (hp : p ≠ [])
    (hentry : describe hasher homedir s.fs p = some entry) :
    entry.1 = List.intercalate [47] p ∧ Reports hasher s.fs entry :=
  reports_of_versions hs (h.homedir ⟨p, hp, (describe_some hentry).1⟩) (h.files p hp) (h.directories p hp) hentry

lemma OnlyVersions.agrees (hlimit : s.fs.dirs.keys.length ≤ limit) : s.Agrees hasher homedir limit where
  reported entry hmem := by
    obtain ⟨p, hp, hentry⟩ := (mem_enumerate hlimit).1 hmem
    exact (h.reports hs hp hentry).2
  found name hname hversions := by
    obtain ⟨v, hv⟩ := List.exists_mem_of_ne_nil _ hversions
    obtain ⟨hversion, hentry⟩ := mem_versions_cases hv
    have hp : components name ≠ [] := by
      intro hnil
      rw [hnil] at hentry
      rw [h.root v hentry] at hversion
      cases hversion
    have hfile : v ∈ s.fs.fileNames (components name) := by
      refine hentry.resolve_right fun hdir => ?_
      rw [h.directories _ hp v hdir] at hversion
      cases hversion
    have hnormal : Normal name := hname.elim (fun hmem => h.names name hmem v hfile hversion) id
    obtain ⟨entry, hentry⟩ := @exists_describe hasher homedir s.fs _ (List.ne_nil_of_mem hfile)
    exact ⟨entry, (mem_enumerate hlimit).2 ⟨_, hp, hentry⟩, (h.reports hs hp hentry).1.trans hnormal.1⟩

end OnlyVersions

lemma agrees_iff (hs : s.fs.Sane) (hlimit : s.fs.dirs.keys.length ≤ limit) :
    s.Agrees hasher homedir limit ↔ s.OnlyVersions homedir :=
  ⟨fun h => ⟨h.no_slash hs hlimit, fun _ hp => h.files hlimit hp, fun _ hp _ hc => h.directories hs hlimit hp hc,
    fun _ hnm => h.root hs hlimit hnm, fun _ hname _ hnm hv => h.names hs hlimit hname hnm hv⟩, fun h =>
      h.agrees hs hlimit⟩

theorem enumerate_agrees_iff (T : TurboLib) (hasher : Bytes → Bytes) (homedir : Bytes) (actions : List SessionAction)
    (hlimit : (actions.foldl (step T hasher) { fs := .empty }).fs.dirs.keys.length ≤ limit) :
    (actions.foldl (step T hasher) { fs := .empty }).Agrees hasher homedir limit ↔
      (actions.foldl (step T hasher) { fs := .empty }).OnlyVersions homedir :=
  agrees_iff (sane_run actions) hlimit

section Examples

def settled : List SessionAction :=
  [.write 0 ⟨ascii "me", 1⟩ (ascii "a") [] 3, .append 0 [97, 98], .commit 0,
    .write 1 ⟨ascii "me", 2⟩ (ascii "a/b") [] 3,
    .commit 1, .write 2 ⟨ascii "me", 3⟩ (ascii "a") [] 3, .commit 2, .write 3 ⟨ascii "me", 4⟩ (ascii "c") [] 3, .crash,
    .remove (ascii "c")]

theorem enumerate_agrees_iff_example : (settled.foldl (step .reference id) { fs := .empty }).fs.dirs.keys.length ≤ 10 ∧
    ((settled.foldl (step .reference id) { fs := .empty }).Agrees id (ascii "/store") 10 ↔
      (settled.foldl (step .reference id) { fs := .empty }).OnlyVersions (ascii "/store")) :=
  ⟨by decide +kernel, enumerate_agrees_iff .reference id (ascii "/store") settled (by decide +kernel)⟩

def abandoned : List SessionAction := [.write 0 ⟨ascii "me", 1⟩ (ascii "a") [] 3, .append 0 [97], .crash]

theorem not_agrees_when_abandoned : (abandoned.foldl (step .reference id) { fs := .empty }).fs.dirs.keys.length ≤ 10 ∧
    versions (abandoned.foldl (step .reference id) { fs := .empty }).fs (ascii "a") false = [] ∧
    ¬ (abandoned.foldl (step .reference id) { fs := .empty }).Agrees id (ascii "/store") 10 := by
  have hlimit : (abandoned.foldl (step .reference id) { fs := .empty }).fs.dirs.keys.length ≤ 10 := by decide +kernel
  refine ⟨hlimit, by decide +kernel, fun h => ?_⟩
  have hfile : ascii "1,me.0G000000000=~" ∈
      (abandoned.foldl (step .reference id) { fs := .empty }).fs.fileNames [ascii "a"] := by decide +kernel
  exact absurd (h.files hlimit (by simp) _ hfile) (by decide +kernel)

end Examples

end StoreSessions

end Turbopump
