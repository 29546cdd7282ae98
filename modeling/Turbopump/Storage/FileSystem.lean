import Turbopump.Basic
import Turbopump.Lib.Pieces
import Turbopump.Lib.SortedMap

/-! The part of a POSIX file system that the stores use. A directory names inodes, so an open file is
written through its inode whatever becomes of its name. -/

namespace Turbopump

abbrev Path := List Bytes

/-- Empty components and `.` are skipped; `..` is not resolved. -/
def components (s : Bytes) : Path := (s.splitOn 47).filter fun c => c ≠ [] ∧ c ≠ [46]

lemma components_append (a b : Bytes) : components (a ++ 47 :: b) = components a ++ components b := by
  rw [components, List.splitOn_append_cons_self, List.filter_append]
  rfl

lemma components_name {c : Bytes} (h : 47 ∉ c) (hne : c ≠ []) (hdot : c ≠ [46]) : components c = [c] := by
  simp [components, List.splitOn_eq_singleton h, hne, hdot]

lemma slash_of_mem_components {s c : Bytes} (h : c ∈ components s) : 47 ∉ c :=
  (not_mem_of_mem_splitOn (List.mem_of_mem_filter h)).1

/-- `md` is the extended attribute "user.md", empty when there is none. -/
structure File where
  content : Bytes := []
  md : Bytes := []
  deriving DecidableEq

structure FileSystem where
  dirs : SortedMap Path (SortedMap Bytes ℕ)
  inodes : List File

namespace FileSystem

def empty : FileSystem := ⟨SortedMap.empty.insert [] .empty, []⟩

def lookup (fs : FileSystem) (dir : Path) (name : Bytes) : Option ℕ := (fs.dirs.get dir).bind (·.get name)

def find (fs : FileSystem) (p : Path) : Option ℕ := match p.getLast? with
  | none => none
  | some name => fs.lookup p.dropLast name

def file (fs : FileSystem) (inode : ℕ) : File := fs.inodes[inode]?.getD {}

def addDir (dirs : SortedMap Path (SortedMap Bytes ℕ)) (q : Path) : SortedMap Path (SortedMap Bytes ℕ) :=
  match dirs.get q with
  | some _ => dirs
  | none => dirs.insert q .empty

def createDirectories (fs : FileSystem) (p : Path) : FileSystem :=
  { fs with dirs := p.inits.foldl addDir fs.dirs }

def fileNames (fs : FileSystem) (dir : Path) : List Bytes := match fs.dirs.get dir with
  | none => []
  | some entries => entries.keys

def dirNames (fs : FileSystem) (dir : Path) : List Bytes :=
  fs.dirs.keys.filterMap fun p => if p.dropLast = dir then p.getLast? else none

def list (fs : FileSystem) (dir : Path) : List Bytes := match fs.dirs.get dir with
  | none => []
  | some _ => fs.fileNames dir ++ fs.dirNames dir

def link (fs : FileSystem) (dir : Path) (name : Bytes) (inode : Option ℕ) : FileSystem :=
  match fs.dirs.get dir with
  | none => fs
  | some entries => { fs with dirs := fs.dirs.insert dir (match inode with
    | some inode => entries.insert name inode
    | none => entries.erase name) }

def openWrite (fs : FileSystem) (p : Path) : Option ℕ × FileSystem :=
  match p.getLast?, fs.dirs.get p.dropLast, fs.dirs.get p with
  | some name, some entries, none => match entries.get name with
    | some inode => (some inode, fs)
    | none => (some fs.inodes.length, { fs.link p.dropLast name fs.inodes.length with inodes := fs.inodes ++ [{}] })
  | _, _, _ => (none, fs)

def setAttribute (fs : FileSystem) (inode : ℕ) (value : Bytes) : FileSystem :=
  { fs with inodes := fs.inodes.modify inode fun f => { f with md := value } }

def overwrite (content : Bytes) (offset : ℕ) (buff : Bytes) : Bytes :=
  if buff = [] then content else content.takeD offset 0 ++ buff ++ content.drop (offset + buff.length)

def writeAt (fs : FileSystem) (inode offset : ℕ) (buff : Bytes) : FileSystem :=
  { fs with inodes := fs.inodes.modify inode fun f => { f with content := overwrite f.content offset buff } }

def rename (fs : FileSystem) (old new : Path) : Bool × FileSystem :=
  -- `File::rename` of a file to another path, which is no directory.
  match old.getLast?, new.getLast?, fs.find old, fs.dirs.get new with
  | some oldName, some newName, some inode, none =>
    (true, (fs.link old.dropLast oldName none).link new.dropLast newName (some inode))
  | _, _, _, _ => (false, fs)

def remove (fs : FileSystem) (p : Path) : FileSystem := match p.getLast? with
  | none => fs
  | some name => fs.link p.dropLast name none

def size (fs : FileSystem) (p : Path) : ℕ :=
  -- `File::size`, of a file that is there.
  match fs.find p with
  | none => 0
  | some inode => (fs.file inode).content.length

def removeAll (fs : FileSystem) (p : Path) : FileSystem :=
  let fs := fs.remove p
  { fs with dirs := fs.dirs.filterKeys fun q => ¬ p <+: q }

section Lookup

variable {fs : FileSystem} {d d' : Path} {nm nm' : Bytes}

def HasDir (fs : FileSystem) (d : Path) : Prop := (fs.dirs.get d).isSome

lemma hasDir_of_lookup {k : ℕ} (h : fs.lookup d nm = some k) : fs.HasDir d := by
  cases hd : fs.dirs.get d with
  | none => simp [lookup, hd] at h
  | some entries => simp [HasDir, hd]

lemma not_hasDir : ¬ fs.HasDir d ↔ fs.dirs.get d = none := by simp [HasDir]

@[simp] lemma find_concat (d : Path) (nm : Bytes) : fs.find (d ++ [nm]) = fs.lookup d nm := by
  simp [find]

lemma mem_fileNames : nm ∈ fs.fileNames d ↔ ∃ k, fs.lookup d nm = some k := by
  cases hd : fs.dirs.get d with
  | none => simp [fileNames, lookup, hd]
  | some entries => simp [fileNames, lookup, hd, SortedMap.mem_keys]

lemma fileNames_nodup : (fs.fileNames d).Nodup := by
  cases hd : fs.dirs.get d with
  | none => simp [fileNames, hd]
  | some entries => simpa [fileNames, hd] using entries.keys_nodup

lemma mem_dirNames : nm ∈ fs.dirNames d ↔ fs.HasDir (d ++ [nm]) := by
  simp only [dirNames, List.mem_filterMap, SortedMap.mem_keys, HasDir, Option.isSome_iff_exists]
  constructor
  · rintro ⟨p, hp, h⟩
    split at h
    case isTrue heq =>
      rcases List.eq_nil_or_concat p with rfl | ⟨q, x, rfl⟩
      · simp at h
      · obtain rfl : q = d := by simpa using heq
        obtain rfl : x = nm := by simpa using h
        simpa using hp
    case isFalse => simp at h
  · exact fun h => ⟨d ++ [nm], h, by simp⟩

lemma dirs_get_link {o : Option ℕ} {p : Path} : ((fs.link d nm o).dirs.get p).isSome = (fs.dirs.get p).isSome := by
  cases hd : fs.dirs.get d with
  | none => simp [link, hd]
  | some entries =>
    by_cases hp : d = p
    · subst hp
      simp [link, hd]
    · simp [link, hd, SortedMap.get_insert_of_ne _ _ hp]

@[simp] lemma hasDir_link {o : Option ℕ} {p : Path} : (fs.link d nm o).HasDir p ↔ fs.HasDir p := by
  rw [HasDir, dirs_get_link, HasDir]

@[simp] lemma inodes_link (o : Option ℕ) : (fs.link d nm o).inodes = fs.inodes := by
  simp only [link]
  split <;> rfl

lemma lookup_link (h : fs.HasDir d) (o : Option ℕ) :
    (fs.link d nm o).lookup d' nm' = if d = d' ∧ nm = nm' then o else fs.lookup d' nm' := by
  obtain ⟨entries, hd⟩ := Option.isSome_iff_exists.1 h
  by_cases hp : d = d'
  · subst hp
    cases o <;> simp [link, lookup, hd, SortedMap.get_insert, SortedMap.get_erase]
  · simp [link, lookup, hd, SortedMap.get_insert_of_ne _ _ hp, hp]

lemma lookup_link_none (o : Option ℕ) (h : ¬ (d = d' ∧ nm = nm')) :
    (fs.link d nm o).lookup d' nm' = fs.lookup d' nm' := by
  by_cases hd : fs.HasDir d
  · rw [lookup_link hd, if_neg h]
  · rw [link, not_hasDir.1 hd]

lemma get_addDir (dirs : SortedMap Path (SortedMap Bytes ℕ)) (q p : Path) :
    (addDir dirs q).get p = if q = p then some ((dirs.get p).getD .empty) else dirs.get p := by
  simp only [addDir]
  cases hq : dirs.get q with
  | none =>
    by_cases h : q = p
    · subst h
      simp [hq]
    · simp [SortedMap.get_insert_of_ne _ _ h, h]
  | some entries =>
    by_cases h : q = p
    · subst h
      simp [hq]
    · simp [h]

lemma get_foldl_addDir (qs : List Path) (dirs : SortedMap Path (SortedMap Bytes ℕ)) (p : Path) :
    (qs.foldl addDir dirs).get p = if p ∈ qs then some ((dirs.get p).getD .empty) else dirs.get p := by
  induction qs generalizing dirs with
  | nil => simp
  | cons q qs ih =>
    rw [List.foldl_cons, ih, get_addDir]
    by_cases hq : q = p
    · subst hq
      simp
    · simp [hq, Ne.symm hq]

@[simp] lemma lookup_createDirectories (p : Path) : (fs.createDirectories p).lookup d nm = fs.lookup d nm := by
  have := get_foldl_addDir p.inits fs.dirs d
  simp only [lookup, createDirectories]
  rw [this]
  split
  · cases fs.dirs.get d <;> simp
  · rfl

@[simp] lemma hasDir_createDirectories {p q : Path} : (fs.createDirectories p).HasDir q ↔ fs.HasDir q ∨ q <+: p := by
  have := get_foldl_addDir p.inits fs.dirs q
  simp only [HasDir, createDirectories]
  simp only [this, List.mem_inits]
  by_cases hq : q <+: p <;> simp [hq]

@[simp] lemma inodes_createDirectories (p : Path) : (fs.createDirectories p).inodes = fs.inodes := rfl

lemma openWrite_new (h : fs.HasDir d) (hdir : ¬ fs.HasDir (d ++ [nm])) (hnew : fs.lookup d nm = none) :
    fs.openWrite (d ++ [nm]) =
      (some fs.inodes.length, { fs.link d nm fs.inodes.length with inodes := fs.inodes ++ [{}] }) := by
  obtain ⟨entries, hd⟩ := Option.isSome_iff_exists.1 h
  have hget : entries.get nm = none := by simpa [lookup, hd] using hnew
  simp only [openWrite, List.getLast?_concat, List.dropLast_concat, hd, not_hasDir.1 hdir, hget]

lemma openWrite_old (hdir : ¬ fs.HasDir (d ++ [nm])) {k : ℕ} (hold : fs.lookup d nm = some k) :
    fs.openWrite (d ++ [nm]) = (some k, fs) := by
  obtain ⟨entries, hd⟩ := Option.isSome_iff_exists.1 (hasDir_of_lookup hold)
  have hget : entries.get nm = some k := by simpa [lookup, hd] using hold
  simp only [openWrite, List.getLast?_concat, List.dropLast_concat, hd, not_hasDir.1 hdir, hget]

lemma openWrite_cases (fs : FileSystem) (p : Path) : fs.openWrite p = (none, fs) ∨
    (∃ d nm k, p = d ++ [nm] ∧ fs.lookup d nm = some k ∧ fs.openWrite p = (some k, fs)) ∨
    ∃ d nm, p = d ++ [nm] ∧ fs.HasDir d ∧ ¬ fs.HasDir (d ++ [nm]) ∧ fs.openWrite p =
      (some fs.inodes.length, { fs.link d nm fs.inodes.length with inodes := fs.inodes ++ [{}] }) := by
  rcases List.eq_nil_or_concat p with rfl | ⟨d, nm, rfl⟩
  · exact Or.inl rfl
  · rw [List.concat_eq_append]
    by_cases hdir : fs.HasDir (d ++ [nm])
    · left
      obtain ⟨entries, hsub⟩ := Option.isSome_iff_exists.1 hdir
      simp only [openWrite, List.getLast?_concat, List.dropLast_concat, hsub]
      cases fs.dirs.get d <;> rfl
    · by_cases hd : fs.HasDir d
      · cases hold : fs.lookup d nm with
        | none => exact Or.inr (Or.inr ⟨d, nm, rfl, hd, hdir, openWrite_new hd hdir hold⟩)
        | some k => exact Or.inr (Or.inl ⟨d, nm, k, rfl, hold, openWrite_old hdir hold⟩)
      · left
        simp only [openWrite, List.getLast?_concat, List.dropLast_concat, not_hasDir.1 hd]

lemma rename_cases (fs : FileSystem) (old new : Path) : fs.rename old new = (false, fs) ∨
    ∃ d nm d' nm' k, old = d ++ [nm] ∧ new = d' ++ [nm'] ∧ fs.lookup d nm = some k ∧ ¬ fs.HasDir new ∧
      fs.rename old new = (true, (fs.link d nm none).link d' nm' (some k)) := by
  rcases List.eq_nil_or_concat old with rfl | ⟨d, nm, rfl⟩
  · exact Or.inl rfl
  · rcases List.eq_nil_or_concat new with rfl | ⟨d', nm', rfl⟩
    · exact Or.inl (by simp [rename])
    · rw [List.concat_eq_append, List.concat_eq_append]
      cases hold : fs.lookup d nm with
      | none => exact Or.inl (by simp [rename, hold])
      | some k =>
        cases hnew : fs.dirs.get (d' ++ [nm']) with
        | none => exact Or.inr ⟨d, nm, d', nm', k, rfl, rfl, hold, not_hasDir.2 hnew, by simp [rename, hold, hnew]⟩
        | some entries => exact Or.inl (by simp [rename, hold, hnew])

lemma rename_eq {k : ℕ} (h : fs.lookup d nm = some k) (hdir : ¬ fs.HasDir (d ++ [nm'])) :
    fs.rename (d ++ [nm]) (d ++ [nm']) = (true, (fs.link d nm none).link d nm' (some k)) := by
  simp [rename, h, not_hasDir.1 hdir]

@[simp] lemma remove_concat : fs.remove (d ++ [nm]) = fs.link d nm none := by
  simp [remove]

@[simp] lemma lookup_setAttribute (inode : ℕ) (value : Bytes) :
    (fs.setAttribute inode value).lookup d nm = fs.lookup d nm := rfl

@[simp] lemma lookup_writeAt (inode offset : ℕ) (buff : Bytes) :
    (fs.writeAt inode offset buff).lookup d nm = fs.lookup d nm := rfl

lemma file_setAttribute_of_ne {inode k : ℕ} (value : Bytes) (h : inode ≠ k) :
    (fs.setAttribute inode value).file k = fs.file k := by
  simp [file, setAttribute, h]

lemma file_writeAt_of_ne {inode k : ℕ} (offset : ℕ) (buff : Bytes) (h : inode ≠ k) :
    (fs.writeAt inode offset buff).file k = fs.file k := by
  simp [file, writeAt, h]

lemma file_setAttribute {inode : ℕ} (value : Bytes) (h : inode < fs.inodes.length) :
    (fs.setAttribute inode value).file inode = { fs.file inode with md := value } := by
  simp [file, setAttribute, h]

lemma file_writeAt {inode : ℕ} (offset : ℕ) (buff : Bytes) (h : inode < fs.inodes.length) :
    (fs.writeAt inode offset buff).file inode =
      { fs.file inode with content := overwrite (fs.file inode).content offset buff } := by
  simp [file, writeAt, h]

@[simp] lemma hasDir_remove {p q : Path} : (fs.remove p).HasDir q ↔ fs.HasDir q := by
  rw [remove]
  split
  · exact Iff.rfl
  · exact hasDir_link

@[simp] lemma inodes_remove (p : Path) : (fs.remove p).inodes = fs.inodes := by
  rw [remove]
  split
  · rfl
  · exact inodes_link _

lemma lookup_remove {p : Path} : (fs.remove p).lookup d nm = if d ++ [nm] = p then none else fs.lookup d nm := by
  rcases List.eq_nil_or_concat p with rfl | ⟨q, name, rfl⟩
  · simp [remove]
  · rw [List.concat_eq_append, remove_concat]
    by_cases heq : d ++ [nm] = q ++ [name]
    · obtain ⟨rfl, hname⟩ := List.append_inj' heq rfl
      obtain rfl := List.head_eq_of_cons_eq hname
      rw [if_pos rfl]
      by_cases hd : fs.HasDir d
      · rw [lookup_link hd, if_pos ⟨rfl, rfl⟩]
      · rw [lookup, link, not_hasDir.1 hd]
        simp [not_hasDir.1 hd]
    · rw [if_neg heq, lookup_link_none]
      rintro ⟨rfl, rfl⟩
      exact heq rfl

lemma hasDir_removeAll {p q : Path} : (fs.removeAll p).HasDir q ↔ fs.HasDir q ∧ ¬ p <+: q := by
  have hdir : (fs.remove p).HasDir q ↔ fs.HasDir q := hasDir_remove
  by_cases hq : p <+: q
  · simp [HasDir, removeAll, hq]
  · simpa [HasDir, removeAll, hq] using hdir

lemma lookup_removeAll {p : Path} : (fs.removeAll p).lookup d nm =
    if p <+: d ∨ d ++ [nm] = p then none else fs.lookup d nm := by
  have hlookup : (fs.remove p).lookup d nm = if d ++ [nm] = p then none else fs.lookup d nm := lookup_remove
  by_cases hd : p <+: d
  · simp [lookup, removeAll, hd]
  · rw [show (fs.removeAll p).lookup d nm = (fs.remove p).lookup d nm by simp [lookup, removeAll, hd], hlookup]
    simp [hd]

lemma overwrite_end (content buff : Bytes) : overwrite content content.length buff = content ++ buff := by
  by_cases h : buff = []
  · simp [overwrite, h]
  · have htake : content.takeD content.length 0 = content := by
      rw [List.takeD_eq_take _ le_rfl, List.take_length]
    have hdrop : content.drop (content.length + buff.length) = [] := List.drop_of_length_le (by omega)
    rw [overwrite, if_neg h, htake, hdrop, List.append_nil]

end Lookup

section Rooted

def Rooted (fs : FileSystem) : Prop := ∀ p q, fs.HasDir (p ++ q) → fs.HasDir p

variable {fs : FileSystem}

lemma Rooted.createDirectories (h : fs.Rooted) (d : Path) : (fs.createDirectories d).Rooted := by
  intro p q hpq
  rw [hasDir_createDirectories] at hpq ⊢
  exact hpq.imp (h p q) fun hpre => (List.prefix_append p q).trans hpre

lemma Rooted.removeAll (h : fs.Rooted) (d : Path) : (fs.removeAll d).Rooted := by
  intro p q hpq
  rw [hasDir_removeAll] at hpq ⊢
  exact ⟨h p q hpq.1, fun hpre => hpq.2 (hpre.trans (List.prefix_append p q))⟩

lemma Rooted.empty : FileSystem.empty.Rooted := by
  intro p q hpq
  have hroot : ∀ r, FileSystem.empty.HasDir r ↔ r = [] := by
    intro r
    by_cases hr : r = []
    · simp [FileSystem.empty, HasDir, hr]
    · simp [FileSystem.empty, HasDir, SortedMap.get_insert, hr, Ne.symm hr]
  rw [hroot] at hpq ⊢
  exact (List.append_eq_nil_iff.1 hpq).1

end Rooted

end FileSystem

end Turbopump
