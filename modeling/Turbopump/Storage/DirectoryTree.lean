import Turbopump.Storage.FileSystem

/-! The file systems that are a tree of directories, with files that have one name each. -/

namespace Turbopump

namespace FileSystem

structure Tree (fs : FileSystem) : Prop where
  rooted : fs.Rooted
  apart : ∀ d nm k, fs.lookup d nm = some k → ¬ fs.HasDir (d ++ [nm])
  linked : ∀ d nm k, fs.lookup d nm = some k → k < fs.inodes.length
  single : ∀ d nm d' nm' k, fs.lookup d nm = some k → fs.lookup d' nm' = some k → d = d' ∧ nm = nm'
  names : ∀ d nm, ((fs.lookup d nm).isSome ∨ fs.HasDir (d ++ [nm])) → 47 ∉ nm

lemma Tree.removeAll {fs : FileSystem} (h : fs.Tree) (p : Path) : (fs.removeAll p).Tree := by
  have hold {d : Path} {nm : Bytes} {k : ℕ} (hk : (fs.removeAll p).lookup d nm = some k) : fs.lookup d nm = some k := by
    rw [lookup_removeAll] at hk
    split_ifs at hk
    exact hk
  constructor
  case rooted => exact h.rooted.removeAll p
  case apart => exact fun d nm k hk hdir => h.apart d nm k (hold hk) (hasDir_removeAll.1 hdir).1
  case linked =>
    intro d nm k hk
    rw [FileSystem.removeAll, inodes_remove]
    exact h.linked d nm k (hold hk)
  case single => exact fun d nm d' nm' k hk hk' => h.single d nm d' nm' k (hold hk) (hold hk')
  case names =>
    rintro d nm (hk | hdir)
    · obtain ⟨k, hk⟩ := Option.isSome_iff_exists.1 hk
      exact h.names d nm (Or.inl (Option.isSome_iff_exists.2 ⟨k, hold hk⟩))
    · exact h.names d nm (Or.inr (hasDir_removeAll.1 hdir).1)

lemma Tree.list_nodup {fs : FileSystem} (h : fs.Tree) (d : Path) : (fs.list d).Nodup := by
  cases hd : fs.dirs.get d with
  | none => simp [list, hd]
  | some entries =>
    rw [list, hd]
    refine List.Nodup.append fileNames_nodup ?_ ?_
    · refine fs.dirs.keys_nodup.filterMap fun p q nm hp hq => ?_
      simp only [Option.mem_def] at hp hq
      split_ifs at hp hq with hp' hq'
      rw [← List.dropLast_append_getLast? nm hp, ← List.dropLast_append_getLast? nm hq, hp', hq']
    · intro nm hfile hdir
      obtain ⟨k, hk⟩ := mem_fileNames.1 hfile
      exact h.apart d nm k hk (mem_dirNames.1 hdir)

/-- A file is in the way of a directory: `create_directories` throws. -/
def blocked (fs : FileSystem) (p : Path) : Bool := p.inits.any fun q => (fs.find q).isSome

lemma blocked_mono {fs : FileSystem} {p d : Path} {nm : Bytes} (hpre : d ++ [nm] <+: p)
    (hfile : (fs.lookup d nm).isSome) : fs.blocked p = true :=
  List.any_eq_true.2 ⟨d ++ [nm], (List.mem_inits _ _).2 hpre, by rwa [find_concat]⟩

lemma Tree.createDirectories {fs : FileSystem} (h : fs.Tree) {p : Path} (hfree : fs.blocked p = false)
    (hnames : ∀ c ∈ p, 47 ∉ c) : (fs.createDirectories p).Tree where
  rooted := h.rooted.createDirectories p
  apart d nm k hk hdir := by
    rw [lookup_createDirectories] at hk
    rcases hasDir_createDirectories.1 hdir with hdir | hpre
    · exact h.apart d nm k hk hdir
    · rw [blocked_mono hpre (Option.isSome_iff_exists.2 ⟨k, hk⟩)] at hfree
      exact absurd hfree (by simp)
  linked d nm k hk := h.linked d nm k (lookup_createDirectories p ▸ hk)
  single d nm d' nm' k hk hk' := by
    rw [lookup_createDirectories] at hk hk'
    exact h.single d nm d' nm' k hk hk'
  names d nm hx := by
    rw [lookup_createDirectories, hasDir_createDirectories, ← or_assoc] at hx
    rcases hx with hx | hpre
    · exact h.names d nm hx
    · exact hnames nm (hpre.subset (by simp))

lemma Tree.link {fs : FileSystem} (h : fs.Tree) (d : Path) {nm : Bytes} (o : Option ℕ) (hnm : 47 ∉ nm)
    (hfree : ∀ k ∈ o, ¬ fs.HasDir (d ++ [nm]) ∧ k < fs.inodes.length ∧ ∀ d' nm', fs.lookup d' nm' ≠ some k) :
    (fs.link d nm o).Tree := by
  have hcases {d' : Path} {nm' : Bytes} {k : ℕ} (hk : (fs.link d nm o).lookup d' nm' = some k) :
      d = d' ∧ nm = nm' ∧ o = some k ∨ fs.lookup d' nm' = some k := by
    by_cases hsame : d = d' ∧ nm = nm'
    · by_cases hd : fs.HasDir d
      · rw [lookup_link hd, if_pos hsame] at hk
        exact Or.inl ⟨hsame.1, hsame.2, hk⟩
      · rw [FileSystem.link, not_hasDir.1 hd] at hk
        exact Or.inr hk
    · rw [lookup_link_none o hsame] at hk
      exact Or.inr hk
  constructor
  case rooted => exact fun p q hpq => hasDir_link.2 (h.rooted p q (hasDir_link.1 hpq))
  case apart =>
    intro d' nm' k hk hdir
    rw [hasDir_link] at hdir
    rcases hcases hk with ⟨rfl, rfl, ho⟩ | hk
    · exact (hfree k ho).1 hdir
    · exact h.apart d' nm' k hk hdir
  case linked =>
    intro d' nm' k hk
    rw [inodes_link]
    rcases hcases hk with ⟨-, -, ho⟩ | hk
    · exact (hfree k ho).2.1
    · exact h.linked d' nm' k hk
  case single =>
    intro d₁ nm₁ d₂ nm₂ k hk₁ hk₂
    rcases hcases hk₁ with ⟨rfl, rfl, ho⟩ | hk₁
    · rcases hcases hk₂ with ⟨rfl, rfl, -⟩ | hk₂
      · exact ⟨rfl, rfl⟩
      · exact absurd hk₂ ((hfree k ho).2.2 d₂ nm₂)
    · rcases hcases hk₂ with ⟨rfl, rfl, ho⟩ | hk₂
      · exact absurd hk₁ ((hfree k ho).2.2 d₁ nm₁)
      · exact h.single d₁ nm₁ d₂ nm₂ k hk₁ hk₂
  case names =>
    intro d' nm' hx
    rw [hasDir_link] at hx
    by_cases hsame : d = d' ∧ nm = nm'
    · exact hsame.2 ▸ hnm
    · rw [lookup_link_none o hsame] at hx
      exact h.names d' nm' hx

lemma Tree.inodes {fs : FileSystem} (h : fs.Tree) (inodes : List File) (hlength : fs.inodes.length ≤ inodes.length) :
    Tree { fs with inodes := inodes } :=
  ⟨h.rooted, h.apart, fun d nm k hk => (h.linked d nm k hk).trans_le hlength, h.single, h.names⟩

lemma Tree.openWrite {fs : FileSystem} (h : fs.Tree) {p : Path} (hnames : ∀ c ∈ p, 47 ∉ c) :
    (fs.openWrite p).2.Tree := by
  rcases openWrite_cases fs p with heq | ⟨d, nm, k, rfl, hk, heq⟩ | ⟨d, nm, rfl, hd, hdir, heq⟩
  · rw [heq]
    exact h
  · rw [heq]
    exact h
  · rw [heq]
    have hlonger := h.inodes (fs.inodes ++ [⟨[], []⟩]) (by simp)
    have hlink : { fs.link d nm fs.inodes.length with inodes := fs.inodes ++ [⟨[], []⟩] } =
        FileSystem.link { fs with inodes := fs.inodes ++ [⟨[], []⟩] } d nm fs.inodes.length := by
      simp only [FileSystem.link]
      split <;> rfl
    show Tree { fs.link d nm fs.inodes.length with inodes := fs.inodes ++ [⟨[], []⟩] }
    rw [hlink]
    refine hlonger.link d _ (hnames nm (by simp)) fun k hk => ?_
    obtain rfl := Option.some.inj hk
    exact ⟨hdir, by simp, fun d' nm' hk' => absurd (h.linked d' nm' _ hk') (lt_irrefl _)⟩

lemma Tree.rename {fs : FileSystem} (h : fs.Tree) {old new : Path} (hnames : ∀ c ∈ old ++ new, 47 ∉ c) :
    (fs.rename old new).2.Tree := by
  rcases rename_cases fs old new with heq | ⟨d, nm, d', nm', k, rfl, rfl, hk, hdir, heq⟩
  · rw [heq]
    exact h
  · rw [heq]
    have hless := h.link d none (hnames nm (by simp)) (by simp)
    refine hless.link d' (some k) (hnames nm' (by simp)) fun l hl => ?_
    obtain rfl := Option.some.inj hl
    refine ⟨fun hnew => hdir (hasDir_link.1 hnew), by rw [inodes_link]; exact h.linked d nm k hk, fun d₁ nm₁ hk₁ => ?_⟩
    rw [lookup_link (hasDir_of_lookup hk)] at hk₁
    split_ifs at hk₁ with hsame
    exact hsame (h.single d nm d₁ nm₁ k hk hk₁)

lemma Tree.remove {fs : FileSystem} (h : fs.Tree) {p : Path} (hnames : ∀ c ∈ p, 47 ∉ c) : (fs.remove p).Tree := by
  rcases List.eq_nil_or_concat p with rfl | ⟨d, nm, rfl⟩
  · exact h
  · rw [List.concat_eq_append, remove_concat]
    exact h.link d none (hnames nm (by simp)) (by simp)

lemma Tree.empty : FileSystem.empty.Tree := by
  have hnone (d : Path) (nm : Bytes) : FileSystem.empty.lookup d nm = none := by
    by_cases hd : [] = d <;> simp [FileSystem.empty, lookup, SortedMap.get_insert, hd]
  have hdir (d : Path) (nm : Bytes) : ¬ FileSystem.empty.HasDir (d ++ [nm]) := by
    simp [FileSystem.empty, HasDir, SortedMap.get_insert]
  exact ⟨Rooted.empty, by simp [hnone], by simp [hnone], by simp [hnone], fun d nm hx => by simp [hnone, hdir] at hx⟩

end FileSystem

end Turbopump
