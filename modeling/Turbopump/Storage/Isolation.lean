import Turbopump.Common.ReferenceClocks
import Turbopump.Storage.DirectoryTree
import Turbopump.Storage.FileStore

/-! What the operations on one key of the store leave of another one. Keys are paths in one tree of directories, and
one key's directory can stand in another's. -/

namespace Turbopump

namespace FileStore

variable (T : TurboLib) (hasher : Bytes → Bytes)

structure CompleteWrite where
  host : Host
  version : Bytes
  copies : ℕ
  buffers : List Bytes

def CompleteWrite.run (session : CompleteWrite) (fs : FileSystem) (name : Bytes) : FileSystem :=
  if fs.blocked (dirpath name) then fs
  else match write T session.host fs name session.version session.copies with
    | (.accepted w, fs) =>
      let (w, fs) := session.buffers.foldl (fun (w, fs) buff => w.write fs buff) (w, fs)
      (w.commit T hasher fs true).2.2
    | (_, fs) => fs

structure SameKey (fs fs' : FileSystem) (m : Bytes) : Prop where
  versions : versions fs' m true = versions fs m true
  finished : ∀ v ∈ FileStore.versions fs m true,
    (fs'.find (filepath m v)).map fs'.file = (fs.find (filepath m v)).map fs.file
  inprogress : ∀ v ∈ FileStore.versions fs m true,
    (fs'.find (tempname m v)).map fs'.file = (fs.find (tempname m v)).map fs.file

section Versions

variable {fs fs' : FileSystem} {m n : Bytes}

lemma versionOf_isSome (nm : Bytes) : (versionOf true nm).isSome ↔ 44 ∈ nm := by
  by_cases hcomma : 44 ∈ nm <;> by_cases hlast : nm.getLast? = some 126 <;> simp [versionOf, hcomma, hlast]

lemma of_mem_list {d : Path} {nm : Bytes} (h : nm ∈ fs.list d) :
    (fs.lookup d nm).isSome ∨ fs.HasDir (d ++ [nm]) := by
  cases hd : fs.dirs.get d with
  | none => simp [FileSystem.list, hd] at h
  | some entries =>
    rw [FileSystem.list, hd] at h
    rw [Option.isSome_iff_exists, ← FileSystem.mem_fileNames, ← FileSystem.mem_dirNames]
    exact List.mem_append.1 h

lemma mem_list (h : fs.Rooted) {d : Path} {nm : Bytes} :
    nm ∈ fs.list d ↔ (fs.lookup d nm).isSome ∨ fs.HasDir (d ++ [nm]) := by
  refine ⟨of_mem_list, fun hnm => ?_⟩
  have hd : fs.HasDir d := by
    rcases hnm with hfile | hsub
    · obtain ⟨k, hk⟩ := Option.isSome_iff_exists.1 hfile
      exact FileSystem.hasDir_of_lookup hk
    · exact h d [nm] hsub
  obtain ⟨entries, hd⟩ := Option.isSome_iff_exists.1 hd
  rw [Option.isSome_iff_exists, ← FileSystem.mem_fileNames, ← FileSystem.mem_dirNames] at hnm
  rw [FileSystem.list, hd]
  exact List.mem_append.2 hnm

lemma versions_eq (h : fs.Rooted) : versions fs m true =
    (fs.fileNames (dirpath m)).filterMap (versionOf true) ++ (fs.dirNames (dirpath m)).filterMap (versionOf true) := by
  rw [← List.filterMap_append]
  cases hd : fs.dirs.get (dirpath m) with
  | none =>
    have hnone : fs.dirNames (dirpath m) = [] := List.eq_nil_iff_forall_not_mem.2 fun nm hnm =>
      FileSystem.not_hasDir.2 hd (h _ [nm] (FileSystem.mem_dirNames.1 hnm))
    simp [versions, FileSystem.list, FileSystem.fileNames, hd, hnone]
  | some entries => simp only [versions, FileSystem.list, hd]

lemma versions_congr (h : fs.Rooted) (h' : fs'.Rooted)
    (hfiles : ∀ nm, 44 ∈ nm → ((fs'.lookup (dirpath m) nm).isSome ↔ (fs.lookup (dirpath m) nm).isSome))
    (hdirs : ∀ nm, 44 ∈ nm → (fs'.HasDir (dirpath m ++ [nm]) ↔ fs.HasDir (dirpath m ++ [nm]))) :
    versions fs' m true = versions fs m true := by
  have hnames (fs : FileSystem) (d : Path) : fs.fileNames d = ((fs.dirs.get d).getD .empty).keys := by
    cases hd : fs.dirs.get d with
    | none => simp [FileSystem.fileNames, hd, SortedMap.keys, SortedMap.empty]
    | some entries => simp [FileSystem.fileNames, hd]
  rw [versions_eq h, versions_eq h', hnames, hnames]
  congr 1
  · refine SortedMap.keys_filterMap_congr fun nm hnm => ?_
    rw [← hnames, ← hnames, FileSystem.mem_fileNames, FileSystem.mem_fileNames, ← Option.isSome_iff_exists,
      ← Option.isSome_iff_exists]
    exact hfiles nm ((versionOf_isSome nm).1 hnm)
  · rw [FileSystem.dirNames, FileSystem.dirNames, List.filterMap_filterMap, List.filterMap_filterMap]
    refine SortedMap.keys_filterMap_congr fun p hp => ?_
    rw [SortedMap.mem_keys, SortedMap.mem_keys, ← Option.isSome_iff_exists, ← Option.isSome_iff_exists]
    obtain ⟨v, hv⟩ := Option.isSome_iff_exists.1 hp
    obtain ⟨nm, hnm, hver⟩ := Option.bind_eq_some_iff.1 hv
    have hcomma : 44 ∈ nm := (versionOf_isSome nm).1 (Option.isSome_iff_exists.2 ⟨v, hver⟩)
    split_ifs at hnm with hparent
    obtain ⟨q, rfl⟩ : ∃ q, p = q ++ [nm] := ⟨p.dropLast, (List.dropLast_append_getLast? nm hnm).symm⟩
    rw [List.dropLast_concat] at hparent
    exact hparent ▸ hdirs nm hcomma

lemma mem_versions (h : fs.Tree) {v : Bytes} (hv : v ∈ versions fs m true) : 44 ∈ v ∧ 47 ∉ v := by
  obtain ⟨nm, hnm, hver⟩ := List.mem_filterMap.1 hv
  have hslash := h.names _ nm (of_mem_list hnm)
  rw [versionOf] at hver
  split_ifs at hver with hcomma hlast
  · obtain rfl := Option.some.inj hver
    obtain ⟨v, rfl⟩ : ∃ v, nm = v ++ [126] := ⟨nm.dropLast, (List.dropLast_append_getLast? 126 hlast).symm⟩
    rw [List.dropLast_concat]
    simp only [List.mem_append, List.mem_singleton, not_or] at hcomma hslash
    exact ⟨hcomma.resolve_right (by decide), hslash.1⟩
  · obtain rfl := Option.some.inj hver
    exact ⟨hcomma, hslash⟩

lemma path_of_comma {name v : Bytes} (hcomma : 44 ∈ v) (hslash : 47 ∉ v) :
    filepath name v = dirpath name ++ [v] ∧ tempname name v = dirpath name ++ [v ++ [126]] := by
  have hpath {u : Bytes} (hcomma : 44 ∈ u) (hslash : 47 ∉ u) : components (name ++ 47 :: u) = dirpath name ++ [u] := by
    rw [components_append, components_name hslash (List.ne_nil_of_mem hcomma), dirpath]
    rintro rfl
    exact absurd hcomma (by decide)
  exact ⟨hpath hcomma hslash, hpath (by simp [hcomma]) (by simp [hslash])⟩

lemma sameKey_of_entries (h : fs.Tree) (h' : fs'.Rooted)
    (hfiles : ∀ nm, 44 ∈ nm →
      (fs'.lookup (dirpath m) nm).map fs'.file = (fs.lookup (dirpath m) nm).map fs.file)
    (hdirs : ∀ nm, 44 ∈ nm → (fs'.HasDir (dirpath m ++ [nm]) ↔ fs.HasDir (dirpath m ++ [nm]))) :
    SameKey fs fs' m := by
  refine ⟨versions_congr h.rooted h' (fun nm hnm => ?_) hdirs, fun v hv => ?_, fun v hv => ?_⟩
  · rw [← Option.isSome_map, hfiles nm hnm, Option.isSome_map]
  · obtain ⟨hcomma, hslash⟩ := mem_versions h hv
    rw [(path_of_comma hcomma hslash).1, FileSystem.find_concat, FileSystem.find_concat, hfiles v hcomma]
  · obtain ⟨hcomma, hslash⟩ := mem_versions h hv
    rw [(path_of_comma hcomma hslash).2, FileSystem.find_concat, FileSystem.find_concat, hfiles _ (by simp [hcomma])]

lemma sameKey_of_nil (h : versions fs m true = []) (h' : versions fs' m true = []) : SameKey fs fs' m :=
  ⟨h'.trans h.symm, by simp [h], by simp [h]⟩

lemma versions_eq_nil (h : ¬ fs.HasDir (dirpath m)) : versions fs m true = [] := by
  simp [versions, FileSystem.list, FileSystem.not_hasDir.1 h]

lemma versions_length (fs : FileSystem) (m : Bytes) :
    (versions fs m true).length = ((fs.list (dirpath m)).filter fun nm => 44 ∈ nm).length := by
  rw [versions, List.length_filterMap_eq_countP, List.countP_eq_length_filter]
  refine congrArg (fun p => ((fs.list (dirpath m)).filter p).length) (funext fun nm => ?_)
  rw [Bool.eq_iff_iff, versionOf_isSome, decide_eq_true_iff]

lemma versions_ne (hnodup : (fs'.list (dirpath m)).Nodup) {nm : Bytes} (hcomma : 44 ∈ nm)
    (hin : nm ∈ fs.list (dirpath m)) (hout : nm ∉ fs'.list (dirpath m))
    (hsub : ∀ x ∈ fs'.list (dirpath m), x ∈ fs.list (dirpath m)) : versions fs' m true ≠ versions fs m true := by
  intro heq
  have hlength := congrArg List.length heq
  rw [versions_length, versions_length] at hlength
  have hle : ((fs'.list (dirpath m)).filter fun nm => 44 ∈ nm).length ≤
      (((fs.list (dirpath m)).filter fun nm => 44 ∈ nm).erase nm).length := by
    refine (List.subperm_of_subset (hnodup.filter _) fun x hx => ?_).length_le
    obtain ⟨hx, hxcomma⟩ := List.mem_filter.1 hx
    refine (List.mem_erase_of_ne ?_).2 (List.mem_filter.2 ⟨hsub x hx, hxcomma⟩)
    rintro rfl
    exact hout hx
  have hmem : nm ∈ (fs.list (dirpath m)).filter fun nm => 44 ∈ nm := List.mem_filter.2 ⟨hin, by simpa using hcomma⟩
  have hpos := List.length_pos_of_mem hmem
  rw [List.length_erase_of_mem hmem] at hle
  omega

end Versions

section Remove

variable {fs : FileSystem} {n m : Bytes}

theorem remove_same_iff (h : fs.Tree) : SameKey fs (remove fs n).2 m ↔
    (dirpath n <+: dirpath m → versions fs m true = []) ∧
      ∀ nm, dirpath n = dirpath m ++ [nm] → 44 ∈ nm → nm ∉ fs.list (dirpath m) := by
  have htree := h.removeAll (dirpath n)
  have hgone (habove : dirpath n <+: dirpath m) : versions (remove fs n).2 m true = [] :=
    versions_eq_nil fun hdir => (FileSystem.hasDir_removeAll.1 hdir).2 habove
  constructor
  · refine fun hsame => ⟨fun habove => hsame.versions ▸ hgone habove, fun nm hpath hcomma hin => ?_⟩
    refine versions_ne (htree.list_nodup _) hcomma hin ?_ ?_ hsame.versions
    · rw [mem_list htree.rooted, FileSystem.lookup_removeAll, FileSystem.hasDir_removeAll, if_pos (Or.inr hpath.symm)]
      simp [hpath]
    · intro x hx
      rw [mem_list htree.rooted, FileSystem.lookup_removeAll, FileSystem.hasDir_removeAll] at hx
      rw [mem_list h.rooted]
      refine hx.imp (fun hfile => ?_) And.left
      split_ifs at hfile
      · simp at hfile
      · exact hfile
  · rintro ⟨habove, hbelow⟩
    by_cases hpre : dirpath n <+: dirpath m
    · exact sameKey_of_nil (habove hpre) (hgone hpre)
    · have hnot {nm : Bytes} (hcomma : 44 ∈ nm) (hpath : dirpath n = dirpath m ++ [nm]) :
          fs.lookup (dirpath m) nm = none ∧ ¬ fs.HasDir (dirpath m ++ [nm]) := by
        have hout := hbelow nm hpath hcomma
        rw [mem_list h.rooted, not_or, Option.not_isSome_iff_eq_none] at hout
        exact hout
      have hfile : (remove fs n).2.file = fs.file := by
        funext k
        rw [FileSystem.file, FileSystem.file, remove, FileSystem.removeAll, FileSystem.inodes_remove]
      refine sameKey_of_entries h htree.rooted (fun nm hcomma => ?_) fun nm hcomma => ?_
      · rw [hfile, remove, FileSystem.lookup_removeAll]
        split_ifs with hnone
        · rw [(hnot hcomma (hnone.resolve_left hpre).symm).1]
        · rfl
      · rw [remove, FileSystem.hasDir_removeAll]
        refine ⟨And.left, fun hdir => ⟨hdir, fun hpre' => ?_⟩⟩
        rcases List.prefix_concat_iff.1 hpre' with heq | hpre'
        · exact (hnot hcomma heq).2 hdir
        · exact hpre hpre'

end Remove

def CompleteWrite.opened (session : CompleteWrite) (fs : FileSystem) (name : Bytes) : Option VectorClock :=
  let fresh := T.increment (mergedVersion T fs name true) session.host.memberId session.host.now
  match VectorClock.fromString T session.version with
  | .threw => none
  | .failed => some fresh
  | .parsed clock =>
    if clock = [] then some fresh
    else if exists_ fs name session.version || VectorClock.isExpired clock 604800 session.host.now then none
    else some clock

def Direct (p : Path) : Prop := [46, 46] ∉ p

instance (p : Path) : Decidable (Direct p) := inferInstanceAs (Decidable (_ ∉ _))

def CompleteWrite.Elsewhere (session : CompleteWrite) (fs : FileSystem) (n m : Bytes) : Prop :=
  dirpath n ≠ dirpath m ∧ ∀ clock, session.opened T fs n = some clock →
    ∀ path ∈ [tempname n (VectorClock.toString T clock), filepath n (VectorClock.toString T clock)],
      Direct path ∧ path.dropLast ≠ dirpath m

structure Beside (fs fs' : FileSystem) (dir made : Path) : Prop where
  hasDir : ∀ p, fs'.HasDir p ↔ fs.HasDir p ∨ p <+: made
  lookup : ∀ nm, fs'.lookup dir nm = fs.lookup dir nm
  file : ∀ nm k, fs.lookup dir nm = some k → fs'.file k = fs.file k
  names : ∀ d nm, ((fs'.lookup d nm).isSome ∨ fs'.HasDir (d ++ [nm])) → 47 ∉ nm

section Sessions

variable {T hasher} {fs fs' : FileSystem} {dir made : Path} {n m : Bytes}

lemma CompleteWrite.write_opened {session : CompleteWrite} {clock : VectorClock}
    (h : session.opened T fs n = some clock) :
    write T session.host fs n session.version session.copies = openVersion T fs n clock session.copies := by
  rw [opened] at h
  rw [write]
  cases hparse : VectorClock.fromString T session.version with
  | threw => simp [hparse] at h
  | failed =>
    simp only [hparse, Option.some.injEq] at h
    simp only [h]
  | parsed parsed =>
    simp only [hparse] at h
    dsimp only
    split_ifs at h ⊢
    · rw [Option.some.inj h]
    · rw [Option.some.inj h]

lemma CompleteWrite.run_of_not_opened {session : CompleteWrite} (h : session.opened T fs n = none) :
    session.run T hasher fs n = fs := by
  have hwrite : write T session.host fs n session.version session.copies = (.threw, fs) ∨
      write T session.host fs n session.version session.copies = (.refused, fs) := by
    rw [opened] at h
    rw [write]
    cases hparse : VectorClock.fromString T session.version with
    | threw => exact Or.inl rfl
    | failed => simp [hparse] at h
    | parsed parsed =>
      simp only [hparse] at h
      dsimp only
      split_ifs at h ⊢
      exact Or.inr rfl
  rw [run]
  split
  · rfl
  · rcases hwrite with hwrite | hwrite
    · rw [hwrite]
    · rw [hwrite]

lemma Beside.link (h : Beside fs fs' dir made) {d : Path} (hd : d ≠ dir) {nm : Bytes} (o : Option ℕ)
    (hnm : 47 ∉ nm) : Beside fs (fs'.link d nm o) dir made where
  hasDir p := FileSystem.hasDir_link.trans (h.hasDir p)
  lookup x := (FileSystem.lookup_link_none o fun heq => hd heq.1).trans (h.lookup x)
  file x k hk := by
    rw [FileSystem.file, FileSystem.inodes_link]
    exact h.file x k hk
  names d' x hx := by
    rw [FileSystem.hasDir_link] at hx
    by_cases hsame : d = d' ∧ nm = x
    · exact hsame.2 ▸ hnm
    · rw [FileSystem.lookup_link_none o hsame] at hx
      exact h.names d' x hx

lemma Beside.inodes (h : Beside fs fs' dir made) (inodes : List File)
    (hfile : ∀ nm k, fs.lookup dir nm = some k → FileSystem.file { fs' with inodes := inodes } k = fs'.file k) :
    Beside fs { fs' with inodes := inodes } dir made :=
  ⟨h.hasDir, h.lookup, fun nm k hk => (hfile nm k hk).trans (h.file nm k hk), h.names⟩

lemma Beside.createDirectories (h : fs.Tree) (dir : Path) (n : Bytes) :
    Beside fs (fs.createDirectories (dirpath n)) dir (dirpath n) where
  hasDir _ := FileSystem.hasDir_createDirectories
  lookup _ := FileSystem.lookup_createDirectories _
  file _ _ _ := rfl
  names d nm hx := by
    rw [FileSystem.lookup_createDirectories, FileSystem.hasDir_createDirectories, ← or_assoc] at hx
    rcases hx with hx | hpre
    · exact h.names d nm hx
    · exact slash_of_mem_components (hpre.subset (by simp))

lemma openVersion_beside (h : fs.Tree) (clock : VectorClock) (copies : ℕ)
    (hpath : (tempname n (VectorClock.toString T clock)).dropLast ≠ dirpath m) :
    Beside fs (openVersion T fs n clock copies).2 (dirpath m) (dirpath n) ∧
      ∀ w, (openVersion T fs n clock copies).1 = .accepted w → w.name = n ∧ w.md.version = clock ∧
        ∃ k, w.writer.inode = some k ∧ ∀ nm, fs.lookup (dirpath m) nm ≠ some k := by
  have hmade := Beside.createDirectories h (dirpath m) n
  have hnames : ∀ c ∈ tempname n (VectorClock.toString T clock), 47 ∉ c := fun c hc => slash_of_mem_components hc
  rw [openVersion]
  generalize tempname n (VectorClock.toString T clock) = path at hpath hnames
  rcases FileSystem.openWrite_cases (fs.createDirectories (dirpath n)) path with
    heq | ⟨d, nm, k, rfl, hk, heq⟩ | ⟨d, nm, rfl, -, -, heq⟩
  · rw [heq]
    exact ⟨hmade, by simp⟩
  · rw [List.dropLast_concat] at hpath
    have hnot (x : Bytes) : fs.lookup (dirpath m) x ≠ some k := fun hx => by
      rw [FileSystem.lookup_createDirectories] at hk
      exact hpath (h.single _ _ _ _ _ hk hx).1
    rw [heq]
    refine ⟨hmade.inodes _ fun x l hx => FileSystem.file_setAttribute_of_ne _ ?_, fun w hw => ?_⟩
    · rintro rfl
      exact hnot x hx
    · obtain rfl := StoreAnswer.accepted.inj hw
      exact ⟨rfl, rfl, k, rfl, hnot⟩
  · rw [List.dropLast_concat] at hpath
    have hnot (x : Bytes) : fs.lookup (dirpath m) x ≠ some fs.inodes.length := fun hx =>
      absurd (h.linked _ _ _ hx) (lt_irrefl _)
    rw [heq]
    refine ⟨(hmade.link hpath _ (hnames nm (by simp))).inodes _ fun x l hx => ?_, fun w hw => ?_⟩
    · have hlt := h.linked _ _ _ hx
      have hne : fs.inodes.length ≠ l := Nat.ne_of_gt hlt
      simp [FileSystem.file, hne, List.getElem?_append_left hlt]
    · obtain rfl := StoreAnswer.accepted.inj hw
      exact ⟨rfl, rfl, _, rfl, hnot⟩

lemma Beside.remove (h : Beside fs fs' dir made) {p : Path} (hp : p.dropLast ≠ dir) (hnames : ∀ c ∈ p, 47 ∉ c) :
    Beside fs (fs'.remove p) dir made := by
  rcases List.eq_nil_or_concat p with rfl | ⟨d, nm, rfl⟩
  · exact h
  · rw [List.concat_eq_append, List.dropLast_concat] at hp
    rw [List.concat_eq_append, FileSystem.remove_concat]
    exact h.link hp none (hnames nm (by simp))

lemma Beside.rename (h : Beside fs fs' dir made) {old new : Path} (hold : old.dropLast ≠ dir)
    (hnew : new.dropLast ≠ dir)
    (hnames : ∀ c ∈ old ++ new, 47 ∉ c) : Beside fs (fs'.rename old new).2 dir made := by
  rcases FileSystem.rename_cases fs' old new with heq | ⟨d, nm, d', nm', k, rfl, rfl, -, -, heq⟩
  · rw [heq]
    exact h
  · rw [List.dropLast_concat] at hold hnew
    rw [heq]
    exact (h.link hold none (hnames nm (by simp))).link hnew (some k) (hnames nm' (by simp))

lemma mem_obsolete_cases {all : List Bytes} {master : VectorClock} {u : Bytes} (h : u ∈ obsolete T all master) :
    u = VectorClock.toString T master ∨ ∃ v ∈ all, u = VectorClock.toString T (VectorClock.ofName T v) := by
  rw [obsolete, List.mem_dedup, List.mem_filterMap] at h
  obtain ⟨v, hv, hu⟩ := h
  dsimp only at hu
  split at hu
  · exact Or.inr ⟨v, hv, (Option.some.inj hu).symm⟩
  · exact Or.inl (Option.some.inj hu).symm
  · exact absurd hu (by simp)

lemma Beside.purge {gone : List Bytes} (h : Beside fs fs' dir made) (hgone : ∀ u ∈ gone, (filepath n u).dropLast ≠ dir)
    (master : KeyMetadata) : Beside fs (gone.foldl (FileStore.purge hasher n) (master, fs')).2 dir made := by
  induction gone generalizing fs' master with
  | nil => exact h
  | cons u gone ih =>
    refine ih (h.remove (hgone u (by simp)) fun c hc => slash_of_mem_components hc) (fun u hu =>
      hgone u (by simp [hu])) _

lemma Beside.purgeObsolete (hT : T.Base64) (h : Beside fs fs' (dirpath m) made) (hdir : dirpath n ≠ dirpath m)
    (master : KeyMetadata) (hown : (filepath n (VectorClock.toString T master.version)).dropLast ≠ dirpath m) :
    Beside fs (FileStore.purgeObsolete T hasher fs' n master).2 (dirpath m) made := by
  have hgone : ∀ u ∈ obsolete T (versions fs' n false) master.version, (filepath n u).dropLast ≠ dirpath m := by
    intro u hu
    rcases mem_obsolete_cases hu with rfl | ⟨v, hv, rfl⟩
    · exact hown
    · obtain ⟨nm, hnm, hver⟩ := List.mem_filterMap.1 hv
      have hslash := h.names _ nm (of_mem_list hnm)
      simp only [versionOf, Bool.false_eq_true, if_false] at hver
      split_ifs at hver
      obtain rfl := Option.some.inj hver
      obtain ⟨hne, hdot⟩ := VectorClock.toString_ne T (VectorClock.ofName T nm)
      rw [filepath, components_append, components_name (VectorClock.toString_ofName_slash hT hslash) hne hdot,
        List.dropLast_concat]
      exact hdir
  rw [FileStore.purgeObsolete]
  exact h.purge hgone master

lemma commit_beside (hT : T.Base64) (h : Beside fs fs' (dirpath m) made) (hdir : dirpath n ≠ dirpath m)
    {w : Writestream}
    (hname : w.name = n) (hpaths : ∀ path ∈ [tempname n (VectorClock.toString T w.md.version),
      filepath n (VectorClock.toString T w.md.version)], path.dropLast ≠ dirpath m) :
    Beside fs (w.commit T hasher fs' true).2.2 (dirpath m) made := by
  have htemp := hpaths _ (by simp : tempname n (VectorClock.toString T w.md.version) ∈ _)
  have hfile := hpaths _ (by simp : filepath n (VectorClock.toString T w.md.version) ∈ _)
  simp only [Writestream.commit, if_true, onWriteComplete, hname]
  have hrename := h.rename htemp hfile fun c hc => by
    rcases List.mem_append.1 hc with hc | hc
    · exact slash_of_mem_components hc
    · exact slash_of_mem_components hc
  split
  · next heq =>
    rw [heq] at hrename
    exact hrename
  · next heq =>
    rw [heq] at hrename
    exact hrename.purgeObsolete hT hdir _ hfile

lemma buffers_beside (h : Beside fs fs' dir made) (buffers : List Bytes) {w : Writestream} {k : ℕ}
    (hw : w.writer.inode = some k) (hnot : ∀ nm, fs.lookup dir nm ≠ some k) :
    Beside fs (buffers.foldl (fun (w, fs) buff => Writestream.write w fs buff) (w, fs')).2 dir made ∧
      (buffers.foldl (fun (w, fs) buff => Writestream.write w fs buff) (w, fs')).1.name = w.name ∧
      (buffers.foldl (fun (w, fs) buff => Writestream.write w fs buff) (w, fs')).1.md = w.md := by
  induction buffers generalizing w fs' with
  | nil => exact ⟨h, rfl, rfl⟩
  | cons buff buffers ih =>
    have hwrite : w.write fs' buff =
        ({ w with writer.offset := w.writer.offset + buff.length }, fs'.writeAt k w.writer.offset buff) := by
      simp [Writestream.write, hw]
    have hnext : Beside fs (fs'.writeAt k w.writer.offset buff) dir made :=
      h.inodes _ fun nm l hl => FileSystem.file_writeAt_of_ne _ _ fun heq => hnot nm (heq ▸ hl)
    rw [List.foldl_cons]
    simp only [hwrite]
    exact ih hnext hw

lemma CompleteWrite.run_beside (hT : T.Base64) (h : fs.Tree) {session : CompleteWrite}
    (helse : session.Elsewhere T fs n m) (hfree : fs.blocked (dirpath n) = false) {clock : VectorClock}
    (hopened : session.opened T fs n = some clock) :
    Beside fs (session.run T hasher fs n) (dirpath m) (dirpath n) := by
  obtain ⟨hdir, hpaths⟩ := helse
  have hpaths := fun path hpath => (hpaths clock hopened path hpath).2
  have hwrite := CompleteWrite.write_opened hopened
  obtain ⟨hopen, haccepted⟩ := openVersion_beside h clock session.copies (hpaths _ List.mem_cons_self)
  rw [CompleteWrite.run, hfree, if_neg Bool.false_ne_true, hwrite]
  split
  · next w fs' heq =>
    rw [heq] at hopen haccepted
    obtain ⟨hname, hversion, k, hk, hnot⟩ := haccepted w rfl
    obtain ⟨hbuffers, hname', hmd⟩ := buffers_beside hopen session.buffers hk hnot
    refine commit_beside hT hbuffers hdir (hname'.trans hname) ?_
    rwa [hmd, hversion]
  · next answer fs' hnot heq =>
    rw [heq] at hopen
    exact hopen

lemma openVersion_tree (h : fs.Tree) (hfree : fs.blocked (dirpath n) = false) (clock : VectorClock) (copies : ℕ) :
    (openVersion T fs n clock copies).2.Tree := by
  have hmade := h.createDirectories hfree fun c hc => slash_of_mem_components hc
  have hopen := hmade.openWrite (p := tempname n (VectorClock.toString T clock)) fun c hc => slash_of_mem_components hc
  rw [openVersion]
  cases heq : (fs.createDirectories (dirpath n)).openWrite (tempname n (VectorClock.toString T clock)) with
  | mk answer fs' =>
    rw [heq] at hopen
    cases answer with
    | none => exact hopen
    | some k => exact hopen.inodes _ (List.length_modify _ _ _).ge

lemma buffers_tree (h : fs.Tree) (buffers : List Bytes) (w : Writestream) :
    (buffers.foldl (fun (w, fs) buff => Writestream.write w fs buff) (w, fs)).2.Tree := by
  induction buffers generalizing w fs with
  | nil => exact h
  | cons buff buffers ih =>
    rw [List.foldl_cons]
    cases hw : w.writer.inode with
    | none =>
      simp only [Writestream.write, hw]
      exact ih h w
    | some k =>
      simp only [Writestream.write, hw]
      exact ih (h.inodes _ (List.length_modify _ _ _).ge) _

lemma commit_tree (h : fs.Tree) (w : Writestream) : (w.commit T hasher fs true).2.2.Tree := by
  have hpurge {gone : List Bytes} {fs : FileSystem} (h : fs.Tree) (master : KeyMetadata) :
      (gone.foldl (FileStore.purge hasher w.name) (master, fs)).2.Tree := by
    induction gone generalizing fs master with
    | nil => exact h
    | cons u gone ih => exact ih (h.remove fun c hc => slash_of_mem_components hc) _
  have hrename := @FileSystem.Tree.rename fs h (tempname w.name (VectorClock.toString T w.md.version))
    (filepath w.name (VectorClock.toString T w.md.version)) fun c hc => by
      rcases List.mem_append.1 hc with hc | hc
      · exact slash_of_mem_components hc
      · exact slash_of_mem_components hc
  simp only [Writestream.commit, if_true, onWriteComplete]
  split
  · next heq =>
    rw [heq] at hrename
    exact hrename
  · next heq =>
    rw [heq] at hrename
    exact hpurge hrename _

lemma CompleteWrite.run_tree (h : fs.Tree) (session : CompleteWrite) (n : Bytes) :
    (session.run T hasher fs n).Tree := by
  cases hfree : fs.blocked (dirpath n) with
  | true =>
    rw [run, hfree, if_pos rfl]
    exact h
  | false =>
    cases hopened : session.opened T fs n with
    | none => rwa [run_of_not_opened hopened]
    | some clock =>
      have hopen := openVersion_tree (T := T) h hfree clock session.copies
      rw [run, hfree, if_neg Bool.false_ne_true, write_opened hopened]
      split
      · next w fs' heq =>
        rw [heq] at hopen
        exact commit_tree (buffers_tree hopen session.buffers w) _
      · next answer fs' hnot heq =>
        rw [heq] at hopen
        exact hopen

theorem write_same_iff (hT : T.Base64) (h : fs.Tree) {session : CompleteWrite} (helse : session.Elsewhere T fs n m) :
    SameKey fs (session.run T hasher fs n) m ↔ fs.blocked (dirpath n) = true ∨ session.opened T fs n = none ∨
      ∀ nm, 44 ∈ nm → dirpath m ++ [nm] <+: dirpath n → nm ∈ fs.list (dirpath m) := by
  cases hfree : fs.blocked (dirpath n) with
  | true =>
    rw [CompleteWrite.run, hfree, if_pos rfl]
    exact iff_of_true ⟨rfl, fun _ _ => rfl, fun _ _ => rfl⟩ (Or.inl rfl)
  | false =>
    cases hopened : session.opened T fs n with
    | none =>
      rw [CompleteWrite.run_of_not_opened hopened]
      exact iff_of_true ⟨rfl, fun _ _ => rfl, fun _ _ => rfl⟩ (Or.inr (Or.inl rfl))
    | some clock =>
      have hbeside := @CompleteWrite.run_beside T hasher fs n m hT h session helse hfree clock hopened
      have hrooted : (session.run T hasher fs n).Rooted := (session.run_tree h n).rooted
      simp only [Bool.false_eq_true, reduceCtorEq, false_or]
      constructor
      · intro hsame nm hcomma hpre
        by_contra hout
        refine versions_ne (h.list_nodup _) hcomma ?_ hout (fun x hx => ?_) hsame.versions.symm
        · exact (mem_list hrooted).2 (Or.inr ((hbeside.hasDir _).2 (Or.inr hpre)))
        · rw [mem_list hrooted, hbeside.lookup, hbeside.hasDir]
          exact ((mem_list h.rooted).1 hx).imp_right Or.inl
      · intro hmade
        refine sameKey_of_entries h hrooted (fun nm hcomma => ?_) fun nm hcomma => ?_
        · rw [hbeside.lookup]
          cases hk : fs.lookup (dirpath m) nm with
          | none => rfl
          | some k => exact congrArg some (hbeside.file nm k hk)
        · rw [hbeside.hasDir, or_iff_left_of_imp]
          intro hpre
          refine ((mem_list h.rooted).1 (hmade nm hcomma hpre)).resolve_left fun hfile => ?_
          rw [FileSystem.blocked_mono hpre hfile] at hfree
          exact absurd hfree (by simp)

end Sessions

section Examples

def writeAt (time : UInt64) : CompleteWrite :=
  ⟨⟨ascii "me", 5⟩, VectorClock.toString TurboLib.reference [⟨ascii "me", time, 0⟩], 3, [[7]]⟩

def storeOf (name : Bytes) : FileSystem := (writeAt 1).run TurboLib.reference id .empty name

lemma storeOf_tree (name : Bytes) : (storeOf name).Tree := CompleteWrite.run_tree FileSystem.Tree.empty _ _

end Examples

end FileStore

end Turbopump
