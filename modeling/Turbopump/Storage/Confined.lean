import Turbopump.Storage.Enumeration
import Turbopump.Storage.Opening

/-! A store that has no files but those of its keys, each under the name of its directory: what `enumerate` makes of
it. -/

namespace Turbopump

open SimpleStore (Normal)
open VectorClock (IsVersion)
open FileStore

/-- Names that are those of their directories, no directory of which is taken for a version of another key. -/
structure Addressed (keys : Set Bytes) : Prop where
  named : [] ∉ keys
  normal : ∀ n ∈ keys, Normal n
  nested : ∀ n ∈ keys, ∀ m ∈ keys, ∀ c, dirpath n ++ [c] <+: dirpath m → 44 ∉ c

structure Confined (keys : Set Bytes) (fs : FileSystem) : Prop where
  sane : fs.Sane
  files : ∀ p nm k, fs.lookup p nm = some k → ∃ n ∈ keys, p = dirpath n

variable {T : TurboLib} {hasher : Bytes → Bytes} {keys : Set Bytes} {fs : FileSystem} {n m : Bytes}

lemma components_toString (clock : VectorClock) :
    ∃ c q, components (VectorClock.toString T clock) = c :: q ∧ (q ≠ [] → 44 ∈ c) := by
  by_cases hslash : 47 ∈ VectorClock.toString T clock
  · obtain ⟨a, b, hv, ha⟩ := List.eq_append_cons_of_mem hslash
    have hne : clock ≠ [] := by
      rintro rfl
      rw [VectorClock.toString, List.flatMap_nil, List.append_nil] at hslash
      exact absurd (VectorClock.mem_decimal hslash) (by decide)
    have hcomma : 44 ∈ a := VectorClock.comma_of_slash hne hv
    have hname : components a = [a] := components_name ha (List.ne_nil_of_mem hcomma) (by rintro rfl; simp at hcomma)
    refine ⟨a, components b, ?_, fun _ => hcomma⟩
    rw [hv, components_append, hname]
    rfl
  · refine ⟨_, [], components_name hslash ?_ ?_, fun h => absurd rfl h⟩
    · simp [VectorClock.toString, VectorClock.decimal_ne_nil]
    · intro hdot
      obtain ⟨c, cs, hcons⟩ := List.exists_cons_of_ne_nil (VectorClock.decimal_ne_nil clock.length)
      have hdigit : isDigit c := VectorClock.mem_decimal (hcons ▸ List.mem_cons_self)
      rw [VectorClock.toString, hcons, List.cons_append] at hdot
      rw [(List.cons.inj hdot).1] at hdigit
      exact absurd hdigit (by decide)

namespace Addressed

lemma intercalate_dirpath (hk : Addressed keys) (hn : n ∈ keys) : List.intercalate [47] (dirpath n) = n :=
  (hk.normal n hn).1

lemma dirpath_ne_nil (hk : Addressed keys) (hn : n ∈ keys) : dirpath n ≠ [] := by
  intro hnil
  have hname := hk.intercalate_dirpath hn
  rw [hnil] at hname
  obtain rfl : [] = n := hname
  exact hk.named hn

lemma keySpace (hk : Addressed keys) : KeySpace keys where
  apart n hn m hm heq := by
    rw [← hk.intercalate_dirpath hn, heq, hk.intercalate_dirpath hm]
  nested := hk.nested

end Addressed

namespace Confined

lemma empty (keys : Set Bytes) : Confined keys .empty where
  sane := .empty
  files p nm k hk := by
    have hnone := (Vacant.empty Set.univ).linked p nm k hk
    simp [FileSystem.empty] at hnone

lemma of_dirs {fs' : FileSystem} (h : Confined keys fs) (heq : fs'.dirs = fs.dirs) : Confined keys fs' where
  sane := h.sane.of_dirs heq
  files p nm k hk := by
    rw [FileSystem.lookup, heq] at hk
    exact h.files p nm k hk

lemma link (h : Confined keys fs) {nm : Bytes} (hn : n ∈ keys) (hnm : FilePaths.IsComponent nm) (o : Option ℕ) :
    Confined keys (fs.link (dirpath n) nm o) where
  sane := h.sane.link _ hnm o
  files d' nm' k hk := by
    by_cases hsame : dirpath n = d' ∧ nm = nm'
    · exact ⟨n, hn, hsame.1.symm⟩
    · rw [FileSystem.lookup_link_none o hsame] at hk
      exact h.files d' nm' k hk

lemma unlink (h : Confined keys fs) {p : Path} : Confined keys (fs.remove p) where
  sane := h.sane.remove p
  files d nm k hk := by
    rw [FileSystem.lookup_remove] at hk
    split_ifs at hk
    exact h.files d nm k hk

lemma removeAll (h : Confined keys fs) (p : Path) : Confined keys (fs.removeAll p) where
  sane := h.sane.removeAll p
  files d nm k hk := by
    rw [FileSystem.lookup_removeAll] at hk
    split_ifs at hk
    exact h.files d nm k hk

lemma createDirectories (hk : Addressed keys) (h : Confined keys fs) (hn : n ∈ keys) :
    Confined keys (fs.createDirectories (dirpath n)) where
  sane := h.sane.createDirectories fun _ hc =>
    ⟨FilePaths.isComponent_of_mem hc, fun hup => (hk.normal n hn).2 (hup ▸ hc)⟩
  files d nm k hlookup := h.files d nm k (FileSystem.lookup_createDirectories _ ▸ hlookup)

lemma isComponent {v : Bytes} (hv : IsVersion T v) (suffix : Bytes) (hsuffix : 47 ∉ suffix) :
    FilePaths.IsComponent (v ++ suffix) := by
  have hne : v ++ suffix ≠ [] := List.append_ne_nil_of_left_ne_nil (List.ne_nil_of_mem hv.comma) _
  refine ⟨by simp [hv.slash, hsuffix], hne, fun hdot => ?_⟩
  have hcomma : 44 ∈ v ++ suffix := List.mem_append_left _ hv.comma
  rw [hdot] at hcomma
  exact absurd hcomma (by decide)

lemma openVersion (hk : Addressed keys) (h : Confined keys fs) (hn : n ∈ keys) {clock : VectorClock}
    (hv : IsVersion T (VectorClock.toString T clock)) (copies : ℕ) :
    Confined keys (FileStore.openVersion T fs n clock copies).2 := by
  have hdirs := h.createDirectories hk hn
  rw [FileStore.openVersion]
  rcases FileSystem.openWrite_cases (fs.createDirectories (dirpath n)) (tempname n (VectorClock.toString T clock)) with
    hopen | ⟨d, nm, k, -, -, hopen⟩ | ⟨d, nm, hpath, -, -, hopen⟩ <;> rw [hopen]
  · exact hdirs
  · exact hdirs.of_dirs rfl
  · rw [tempname_eq hv] at hpath
    obtain ⟨rfl, hnm⟩ := List.append_inj' hpath rfl
    obtain rfl := List.singleton_inj.1 hnm
    exact (hdirs.link hn (isComponent hv [126] (by decide)) (some _)).of_dirs rfl

lemma write (hk : Addressed keys) (h : Confined keys fs) (hn : n ∈ keys) {v : Bytes} (hv : v = [] ∨ IsVersion T v)
    {host : Host} (hhost : v = [] → NewVersion T host fs n) (copies : ℕ) :
    Confined keys (FileStore.write T host fs n v copies).2 := by
  rcases hv with rfl | hv
  · rw [write_fresh]
    exact h.openVersion hk hn (hhost rfl).isVersion copies
  · rw [write_version hv]
    split_ifs
    · exact h
    · exact h.openVersion hk hn (hv.toString_ofName.symm ▸ hv) copies

lemma purge (gone : List Bytes) {md : KeyMetadata} (h : Confined keys fs) :
    Confined keys (gone.foldl (FileStore.purge hasher n) (md, fs)).2 := by
  induction gone generalizing md fs with
  | nil => exact h
  | cons u gone ih => exact ih h.unlink

lemma onWriteComplete (h : Confined keys fs) (hn : n ∈ keys) {md : KeyMetadata}
    (hv : IsVersion T (VectorClock.toString T md.version)) :
    Confined keys (FileStore.onWriteComplete T hasher fs n md).2 := by
  rw [FileStore.onWriteComplete]
  rcases FileSystem.rename_cases fs (tempname n (VectorClock.toString T md.version))
    (filepath n (VectorClock.toString T md.version)) with hrename | ⟨d, nm, d', nm', k, hold, hnew, -, -, hrename⟩
  · simp only [hrename]
    exact h
  · rw [tempname_eq hv] at hold
    rw [filepath_eq hv] at hnew
    obtain ⟨rfl, hnm⟩ := List.append_inj' hold rfl
    obtain ⟨rfl, hnm'⟩ := List.append_inj' hnew rfl
    obtain rfl := List.singleton_inj.1 hnm
    obtain rfl := List.singleton_inj.1 hnm'
    have hversion : FilePaths.IsComponent (VectorClock.toString T md.version) := by
      simpa using isComponent hv [] (by simp)
    simp only [hrename]
    exact ((h.link hn (isComponent hv [126] (by decide)) none).link hn hversion (some k)).purge _

lemma commit_kept (hasher : Bytes → Bytes) (fs : FileSystem) (w : Writestream) (close : Bool) :
    (w.commit T hasher fs close).2.1.name = w.name ∧ (w.commit T hasher fs close).2.1.vstr T = w.vstr T := by
  have hpurge (gone : List Bytes) (md : KeyMetadata) (fs : FileSystem) :
      (gone.foldl (FileStore.purge hasher w.name) (md, fs)).1.version = md.version := by
    induction gone generalizing md fs with
    | nil => rfl
    | cons u gone ih => exact ih _ _
  refine ⟨rfl, congrArg (VectorClock.toString T) ?_⟩
  simp only [Writestream.commit]
  split_ifs
  · simp only [FileStore.onWriteComplete]
    split
    · rfl
    · exact hpurge _ _ _
  · rfl

lemma commit (h : Confined keys fs) {w : Writestream} (hn : w.name ∈ keys) (hv : IsVersion T (w.vstr T))
    (close : Bool) : Confined keys (w.commit T hasher fs close).2.2 := by
  cases close with
  | false => exact h
  | true => exact h.onWriteComplete hn hv

lemma writeBuff (h : Confined keys fs) (w : Writestream) (buff : Bytes) : Confined keys (w.write fs buff).2 := by
  rw [Writestream.write]
  split
  · exact h
  · exact h.of_dirs rfl

lemma parent (hk : Addressed keys) (h : Confined keys fs) (hn : n ∈ keys) {clock : VectorClock} {k : ℕ}
    (hfind : fs.find (filepath n (VectorClock.toString T clock)) = some k) :
    ∃ nm, fs.lookup (dirpath n) nm = some k := by
  obtain ⟨c, q, hcomponents, hcomma⟩ := components_toString (T := T) clock
  rw [filepath, components_append, hcomponents, ← dirpath] at hfind
  rcases List.eq_nil_or_concat q with rfl | ⟨q, nm, rfl⟩
  · rw [FileSystem.find_concat] at hfind
    exact ⟨c, hfind⟩
  · rw [List.concat_eq_append] at hcomma
    rw [List.concat_eq_append, ← List.cons_append, ← List.append_assoc, FileSystem.find_concat] at hfind
    obtain ⟨m, hm, hdir⟩ := h.files _ _ _ hfind
    have hnested : dirpath n ++ [c] <+: dirpath m := ⟨q, by rw [← hdir, List.append_assoc]; rfl⟩
    exact absurd (hcomma (by simp)) (hk.nested n hn m hm c hnested)

section Idle

variable {homedir : Bytes} {limit : ℕ}

lemma described (hT : T.Base64) (hk : Addressed keys) (h : Confined keys fs) (htidy : Tidy T keys fs fun _ => none)
    (hhome : homedir.getLast? ≠ some 47) {p : Path} {entry : Bytes × KeyMetadata × List Bytes}
    (hentry : describe hasher homedir fs p = some entry) :
    entry.1 ∈ keys ∧ p = dirpath entry.1 ∧ Reports hasher fs entry := by
  obtain ⟨hnames, -⟩ := describe_some hentry
  obtain ⟨nm, hnm⟩ := List.exists_mem_of_ne_nil _ hnames
  obtain ⟨k, hlookup⟩ := FileSystem.mem_fileNames.1 hnm
  obtain ⟨n, hn, rfl⟩ := h.files p nm k hlookup
  have hversion (nm : Bytes) (hnm : nm ∈ fs.fileNames (dirpath n)) : versionOf false nm = some nm := by
    obtain ⟨k, hlookup⟩ := FileSystem.mem_fileNames.1 hnm
    rcases htidy.entries n hn nm k hlookup with hv | ⟨i, w, hw, -⟩
    · exact versionOf_version hT hv false
    · cases hw
  obtain ⟨hname, hreports⟩ := reports_of_versions h.sane hhome hversion
    (fun c hc => if_pos (htidy.subdirs n hn c hc)) hentry
  rw [hk.intercalate_dirpath hn] at hname
  exact ⟨hname ▸ hn, by rw [hname], hreports⟩

lemma enumerated (hT : T.Base64) (hk : Addressed keys) (h : Confined keys fs) (htidy : Tidy T keys fs fun _ => none)
    (hhome : homedir.getLast? ≠ some 47) (hlimit : fs.dirs.keys.length ≤ limit) :
    (∀ entry ∈ enumerate hasher homedir fs limit [], entry.1 ∈ keys ∧ Reports hasher fs entry ∧
      ∃ v file, stored fs entry.1 v = some file ∧ entry.2.1.totalCopies = (mdFromString {} file.md).totalCopies) ∧
    (∀ n ∈ keys, versions fs n false ≠ [] → ∃ entry ∈ enumerate hasher homedir fs limit [], entry.1 = n) ∧
    ((enumerate hasher homedir fs limit []).map Prod.fst).Nodup := by
  have hname {p : Path} {entry : Bytes × KeyMetadata × List Bytes}
      (hentry : describe hasher homedir fs p = some entry) := h.described hT hk htidy hhome hentry
  refine ⟨fun entry hmem => ?_, fun n hn hversions => ?_, ?_⟩
  · obtain ⟨p, hp, hentry⟩ := (mem_enumerate hlimit).1 hmem
    obtain ⟨hn, rfl, hreports⟩ := hname hentry
    refine ⟨hn, hreports, ?_⟩
    rw [describe] at hentry
    cases hnames : fs.fileNames (dirpath entry.1) with
    | nil => simp [hnames] at hentry
    | cons first rest =>
      have hfirst : first ∈ fs.fileNames (dirpath entry.1) := hnames ▸ List.mem_cons_self
      obtain ⟨k, hlookup⟩ := FileSystem.mem_fileNames.1 hfirst
      have hv : IsVersion T first := by
        rcases htidy.entries entry.1 hn first k hlookup with hv | ⟨i, w, hw, -⟩
        · exact hv
        · cases hw
      refine ⟨first, fs.file k, ?_, ?_⟩
      · rw [htidy.stored_eq hT hn hv, hlookup]
        rfl
      · simp only [hnames, hlookup] at hentry
        exact congrArg (fun entry => entry.2.1.totalCopies) (Option.some.inj hentry).symm
  · obtain ⟨v, hv⟩ := List.exists_mem_of_ne_nil _ hversions
    obtain ⟨-, k, hlookup⟩ := (htidy.mem_versions hT hn).1 hv
    obtain ⟨entry, hentry⟩ := @exists_describe hasher homedir fs (dirpath n)
      (List.ne_nil_of_mem (FileSystem.mem_fileNames.2 ⟨k, hlookup⟩))
    obtain ⟨hkey, hdir, -⟩ := hname hentry
    exact ⟨entry, (mem_enumerate hlimit).2 ⟨_, hk.dirpath_ne_nil hn, hentry⟩, (hk.keySpace.apart n hn _ hkey hdir).symm⟩
  · rw [enumerate, List.map_take]
    apply List.Nodup.sublist (List.take_sublist _ _)
    rw [List.Nodup, List.pairwise_map, List.pairwise_filterMap]
    apply List.Pairwise.imp_of_mem _ (fs.dirs.keys_nodup.filter _)
    intro p q hp hq hne entry hentry entry' hentry' heq
    obtain ⟨-, hdir, -⟩ := hname hentry
    obtain ⟨-, hdir', -⟩ := hname hentry'
    exact hne (hdir.trans ((congrArg dirpath heq).trans hdir'.symm))

end Idle

end Confined

end Turbopump
