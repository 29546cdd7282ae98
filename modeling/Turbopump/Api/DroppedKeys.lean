import Turbopump.Api.AckWriteCommand
import Turbopump.Common.ReferenceClocks
import Turbopump.Lib.Runs
import Turbopump.Storage.Opening

/-! Write sessions of one key beside acknowledgements that drop it: what a commit that reports success leaves. -/

namespace Turbopump

open FileStore
open VectorClock (IsVersion)

structure KeySessions (θ : Type) where
  store : StoreState (Callbacks θ)
  live : ℕ → Option Writestream := fun _ => none

inductive KeyAction where
  | start (session : ℕ) (now : UInt64) (version : Bytes) (copies : ℕ)
  | append (session : ℕ) (buff : Bytes)
  | flush (session : ℕ)
  | commit (session : ℕ)
  | ack (keyIsMine : Bytes → ℕ → Bool) (version : Bytes) (size : ℕ)

namespace KeySessions

variable {θ : Type} (T : TurboLib) (hasher : Bytes → Bytes) (memberId n : Bytes)

def setFiles (s : KeySessions θ) (fs : FileSystem) : KeySessions θ := { s with store.fs := fs }

def start (session : ℕ) (now : UInt64) (version : Bytes) (copies : ℕ) (s : KeySessions θ) : KeySessions θ :=
  match s.live session, FileStore.write T ⟨memberId, now⟩ s.store.fs n version copies with
  | none, (.accepted w, fs) => { s.setFiles fs with live := Function.update s.live session (some w) }
  | none, (_, fs) => s.setFiles fs
  | some _, _ => s

def step (s : KeySessions θ) : KeyAction → KeySessions θ
  | .start session now version copies => s.start T memberId n session now version copies
  | .append session buff => match s.live session with
    | none => s
    | some w => { s.setFiles (w.write s.store.fs buff).2 with
        live := Function.update s.live session (some (w.write s.store.fs buff).1) }
  | .flush session => match s.live session with
    | none => s
    | some w => { s.setFiles (w.commit T hasher s.store.fs false).2.2 with
        live := Function.update s.live session (some (w.commit T hasher s.store.fs false).2.1) }
  | .commit session => match s.live session with
    | none => s
    | some w => { s.setFiles (w.commit T hasher s.store.fs true).2.2 with
        live := Function.update s.live session none }
  | .ack keyIsMine version size => { s with store := (AckWriteCommand.run T keyIsMine ⟨n, version, size⟩ s.store).2 }

end KeySessions

namespace FileSystem

variable {fs : FileSystem}

lemma openWrite_of_not_hasDir {p : Path} (h : ¬ fs.HasDir p.dropLast) : fs.openWrite p = (none, fs) := by
  cases hlast : p.getLast? with
  | none => simp [openWrite, hlast]
  | some name => simp [openWrite, hlast, not_hasDir.1 h]

end FileSystem

namespace FileStore

section Slash

variable {T : TurboLib}

lemma components_ne_nil (s : Bytes) : components (s ++ [126]) ≠ [] := by
  induction hn : s.length using Nat.strong_induction_on generalizing s with
  | h k ih =>
    by_cases hslash : 47 ∈ s
    · obtain ⟨a, b, rfl, -⟩ := List.eq_append_cons_of_mem hslash
      rw [List.append_assoc, List.cons_append, components_append]
      intro h
      refine ih b.length ?_ b rfl (List.append_eq_nil_iff.1 h).2
      rw [← hn, List.length_append, List.length_cons]
      omega
    · have hdot : s ++ [126] ≠ [46] := by
        intro h
        have hlast := congrArg List.getLast? h
        simp at hlast
      rw [components_name (by simp [hslash]) (by simp) hdot]
      simp

lemma tempname_slash (n : Bytes) {clock : VectorClock} (hne : clock ≠ [])
    (hslash : 47 ∈ VectorClock.toString T clock) :
    ∃ c q, 44 ∈ c ∧ q ≠ [] ∧ tempname n (VectorClock.toString T clock) = dirpath n ++ c :: q := by
  obtain ⟨a, b, hv, ha⟩ := List.eq_append_cons_of_mem hslash
  have hcomma : 44 ∈ a := VectorClock.comma_of_slash hne hv
  have hname : components a = [a] := components_name ha (List.ne_nil_of_mem hcomma) (by rintro rfl; simp at hcomma)
  refine ⟨a, components (b ++ [126]), hcomma, components_ne_nil b, ?_⟩
  rw [tempname, components_append, hv, List.append_assoc, List.cons_append, components_append, hname, dirpath]
  rfl

end Slash

section Directory

variable {T : TurboLib} {hasher : Bytes → Bytes} {fs fs' : FileSystem} {n : Bytes} {w : Writestream}

structure Session (T : TurboLib) (n : Bytes) (w : Writestream) : Prop where
  name : w.name = n
  version : IsVersion T (w.vstr T)
  clock : VectorClock.ofName T (w.vstr T) = w.md.version
  path : w.writer.path = tempname n (w.vstr T)

lemma KeyDir.mono (h : KeyDir T fs n) (hdirs : ∀ c, fs'.HasDir (dirpath n ++ [c]) → fs.HasDir (dirpath n ++ [c]))
    (hentries : ∀ nm k, fs'.lookup (dirpath n) nm = some k →
      (∃ l, fs.lookup (dirpath n) nm = some l) ∨ IsVersion T nm ∨ ∃ u, IsVersion T u ∧ nm = u ++ [126]) :
    KeyDir T fs' n where
  subdirs c hc := h.subdirs c (hdirs c hc)
  entries nm k hk := (hentries nm k hk).elim (fun ⟨l, hl⟩ => h.entries nm l hl) id

structure Opens (fs fs' : FileSystem) (dir : Path) (nm : Bytes) (inode : ℕ) : Prop where
  lookup : ∀ x, fs'.lookup dir x = if nm = x then some inode else fs.lookup dir x
  hasDir : ∀ p, fs'.HasDir p ↔ fs.HasDir p ∨ p <+: dir
  inode : fs.lookup dir nm = some inode ∨ inode = fs.inodes.length ∧ fs'.inodes.length = fs.inodes.length + 1
  length : fs.inodes.length ≤ fs'.inodes.length
  content : ∀ k, (fs'.file k).content = (fs.file k).content

lemma content_setAttribute (fs : FileSystem) (inode : ℕ) (value : Bytes) (k : ℕ) :
    ((fs.setAttribute inode value).file k).content = (fs.file k).content := by
  by_cases hk : inode = k
  · subst hk
    cases hf : fs.inodes[inode]? <;> simp [FileSystem.file, FileSystem.setAttribute, hf]
  · rw [FileSystem.file_setAttribute_of_ne value hk]

lemma file_default {k : ℕ} (h : fs.inodes.length ≤ k) : fs.file k = {} := by
  rw [FileSystem.file, List.getElem?_eq_none h]
  rfl

lemma Created.opens {md nm : Bytes} {dir : Path} (h : Created fs fs' dir nm md) :
    Opens fs fs' dir nm fs.inodes.length where
  lookup x := by simpa using h.lookup dir x
  hasDir := h.hasDir
  inode := .inr ⟨rfl, h.length⟩
  length := by
    rw [h.length]
    omega
  content k := by
    rcases lt_trichotomy k fs.inodes.length with hk | rfl | hk
    · rw [h.file_old k hk]
    · rw [h.file, file_default le_rfl]
    · rw [file_default hk.le, file_default (by rw [h.length]; exact hk)]

lemma KeyDir.openVersion_slash (h : KeyDir T fs n) (hr : fs.Rooted) {clock : VectorClock} (hne : clock ≠ [])
    (hslash : 47 ∈ VectorClock.toString T clock) (copies : ℕ) :
    openVersion T fs n clock copies = (.refused, fs.createDirectories (dirpath n)) := by
  obtain ⟨c, q, hcomma, hq, htemp⟩ := tempname_slash n hne hslash
  have hnodir : ¬ (fs.createDirectories (dirpath n)).HasDir (dirpath n ++ c :: q).dropLast := by
    intro hdir
    rw [List.dropLast_append_of_ne_nil (by simp), List.dropLast_cons_of_ne_nil hq, List.append_cons] at hdir
    have hsub := (hr.createDirectories (dirpath n)) _ _ hdir
    rw [FileSystem.hasDir_createDirectories] at hsub
    exact h.subdirs c (hsub.resolve_right fun hpre => by simpa using hpre.length_le) hcomma
  simp only [FileStore.openVersion, htemp, FileSystem.openWrite_of_not_hasDir hnodir]

lemma KeyDir.openVersion_opens (h : KeyDir T fs n) {clock : VectorClock}
    (hv : IsVersion T (VectorClock.toString T clock)) (copies : ℕ) :
    ∃ inode fs', openVersion T fs n clock copies =
        (.accepted ⟨⟨some inode, 0, tempname n (VectorClock.toString T clock)⟩,
          { version := clock, totalCopies := copies }, n⟩, fs') ∧
      Opens fs fs' (dirpath n) (VectorClock.toString T clock ++ [126]) inode := by
  have hdir : ¬ fs.HasDir (dirpath n ++ [VectorClock.toString T clock ++ [126]]) :=
    fun hd => h.subdirs _ hd (by simp [hv.comma])
  cases hlookup : fs.lookup (dirpath n) (VectorClock.toString T clock ++ [126]) with
  | none =>
    obtain ⟨fs', hopen, hcreated⟩ := openVersion_created clock copies (tempname_eq hv n) hdir hlookup
    rw [← tempname_eq hv] at hopen
    exact ⟨_, fs', hopen, hcreated.opens⟩
  | some k =>
    have hdir' : ¬ (fs.createDirectories (dirpath n)).HasDir
      (dirpath n ++ [VectorClock.toString T clock ++ [126]]) := by
      rw [FileSystem.hasDir_createDirectories]
      exact fun hd => hdir (hd.resolve_right fun hpre => by simpa using hpre.length_le)
    have hopen := FileSystem.openWrite_old hdir' (by simpa using hlookup)
    rw [← tempname_eq hv] at hopen
    refine ⟨k, _, by simp only [openVersion, hopen]; rfl, ?_, fun p => ?_, .inl hlookup, ?_, fun l => ?_⟩
    · intro x
      rw [FileSystem.lookup_setAttribute, FileSystem.lookup_createDirectories]
      split_ifs with hx
      · exact hx ▸ hlookup
      · rfl
    · exact FileSystem.hasDir_createDirectories
    · simp [FileSystem.setAttribute]
    · rw [content_setAttribute]
      rfl

lemma KeyDir.openVersion (h : KeyDir T fs n) (hr : fs.Rooted) {clock : VectorClock} (hne : clock ≠ [])
    (hclock : 47 ∉ VectorClock.toString T clock →
      IsVersion T (VectorClock.toString T clock) ∧ VectorClock.ofName T (VectorClock.toString T clock) = clock)
    (copies : ℕ) :
    KeyDir T (FileStore.openVersion T fs n clock copies).2 n ∧ (FileStore.openVersion T fs n clock copies).2.Rooted ∧
      ∀ w, (FileStore.openVersion T fs n clock copies).1 = .accepted w → Session T n w := by
  have hsub {fs' : FileSystem} (hdirs : ∀ p, fs'.HasDir p ↔ fs.HasDir p ∨ p <+: dirpath n) (c : Bytes)
      (hc : fs'.HasDir (dirpath n ++ [c])) : fs.HasDir (dirpath n ++ [c]) :=
    ((hdirs _).1 hc).resolve_right fun hpre => by simpa using hpre.length_le
  have hrooted {fs' : FileSystem} (hdirs : ∀ p, fs'.HasDir p ↔ fs.HasDir p ∨ p <+: dirpath n) : fs'.Rooted := by
    intro p q hpq
    rw [hdirs] at hpq ⊢
    exact hpq.imp (hr p q) fun hpre => (List.prefix_append p q).trans hpre
  by_cases hslash : 47 ∈ VectorClock.toString T clock
  · have hdirs (p : Path) : (fs.createDirectories (dirpath n)).HasDir p ↔ fs.HasDir p ∨ p <+: dirpath n :=
      FileSystem.hasDir_createDirectories
    rw [h.openVersion_slash hr hne hslash]
    exact ⟨h.mono (hsub hdirs) fun nm k hk => .inl ⟨k, by simpa using hk⟩, hrooted hdirs, by simp⟩
  · obtain ⟨hversion, hname⟩ := hclock hslash
    obtain ⟨inode, fs', hopen, hopens⟩ := h.openVersion_opens hversion copies
    rw [hopen]
    refine ⟨h.mono (hsub hopens.hasDir) fun nm k hk => ?_, hrooted hopens.hasDir, ?_⟩
    · rw [hopens.lookup] at hk
      split_ifs at hk with hnm
      · exact .inr (.inr ⟨_, hversion, hnm.symm⟩)
      · exact .inl ⟨k, hk⟩
    · rintro w ⟨⟩
      exact ⟨rfl, hversion, hname, rfl⟩

lemma KeyDir.mergedVersion_plain (hT : T.Base64) (hP : T.Printable) (h : KeyDir T fs n) :
    ∀ c ∈ mergedVersion T fs n true, c.Plain := by
  have hfold (vs : List Bytes) (hvs : ∀ v ∈ vs, IsVersion T v) : ∀ acc : VectorClock, (∀ c ∈ acc, c.Plain) →
      ∀ c ∈ vs.foldl (fun version v => T.merge version (VectorClock.ofName T v)) acc, c.Plain := by
    induction vs with
    | nil => exact fun _ hacc => hacc
    | cons v vs ih =>
      intro acc hacc
      obtain ⟨hv, hvs⟩ := List.forall_mem_cons.1 hvs
      exact ih hvs _ (hP.merge _ _ hacc hv.plain)
  exact hfold _ (fun v hv => h.isVersion hT hv) [] (by simp)

lemma KeyDir.freshVersion (hT : T.Base64) (hP : T.Printable) (h : KeyDir T fs n) (host : Host)
    (hid : ∀ b ∈ host.memberId, isPlain b) :
    FileStore.freshVersion T host fs n ≠ [] ∧ IsVersion T (VectorClock.toString T
      (FileStore.freshVersion T host fs n)) ∧
      VectorClock.ofName T (VectorClock.toString T (FileStore.freshVersion T host fs n)) =
        FileStore.freshVersion T host fs n := by
  have hplain := hP.increment _ host.memberId host.now hid (h.mergedVersion_plain hT hP)
  obtain ⟨hne, hlength⟩ := hP.bounded (mergedVersion T fs n true) host.memberId host.now
  have hbound := lt_of_le_of_lt hlength (by decide : 6 < 2 ^ 32)
  refine ⟨hne, VectorClock.isVersion_toString hT hne hplain hbound, ?_⟩
  rw [VectorClock.ofName, FileStore.freshVersion, VectorClock.fromString_toString hT hplain hbound]

lemma KeyDir.write (hT : T.Base64) (hP : T.Printable) (h : KeyDir T fs n) (hr : fs.Rooted) {host : Host}
    (hid : ∀ b ∈ host.memberId, isPlain b) (version : Bytes) (copies : ℕ) :
    KeyDir T (FileStore.write T host fs n version copies).2 n ∧
      (FileStore.write T host fs n version copies).2.Rooted ∧
      ∀ w, (FileStore.write T host fs n version copies).1 = .accepted w → Session T n w := by
  obtain ⟨hne, hversion, hname⟩ := h.freshVersion hT hP host hid
  have hopen := h.openVersion hr hne (fun _ => ⟨hversion, hname⟩) copies
  rw [FileStore.write]
  cases hparse : VectorClock.fromString T version with
  | threw => exact ⟨h, hr, by simp⟩
  | failed => exact hopen
  | parsed clock =>
    by_cases hempty : clock = []
    · simp only [if_pos hempty]
      exact hopen
    · simp only [if_neg hempty]
      split
      · exact ⟨h, hr, by simp⟩
      · exact h.openVersion hr hempty (VectorClock.isVersion_of_parsed hT hparse hempty) copies

lemma purge_cases (gone : List Bytes) (hgone : ∀ u ∈ gone, IsVersion T u) (md : KeyMetadata) (fs : FileSystem) :
    (∀ p, (gone.foldl (FileStore.purge hasher n) (md, fs)).2.HasDir p ↔ fs.HasDir p) ∧
      (gone.foldl (FileStore.purge hasher n) (md, fs)).2.inodes = fs.inodes ∧
      ∀ nm, (gone.foldl (FileStore.purge hasher n) (md, fs)).2.lookup (dirpath n) nm =
        if nm ∈ gone then none else fs.lookup (dirpath n) nm := by
  induction gone generalizing md fs with
  | nil => simp
  | cons u gone ih =>
    obtain ⟨hu, hgone⟩ := List.forall_mem_cons.1 hgone
    obtain ⟨hdirs, hinodes, hlookup⟩ := ih hgone (purge hasher n (md, fs) u).1 (purge hasher n (md, fs) u).2
    have hpurge : (purge hasher n (md, fs) u).2 = fs.link (dirpath n) u none := by
      rw [purge, filepath_eq hu, FileSystem.remove_concat]
    refine ⟨fun p => ?_, ?_, fun nm => ?_⟩
    · rw [List.foldl_cons, hdirs, hpurge, FileSystem.hasDir_link]
    · rw [List.foldl_cons, hinodes, hpurge, FileSystem.inodes_link]
    · rw [List.foldl_cons, hlookup, hpurge]
      by_cases hhas : fs.HasDir (dirpath n)
      · rw [FileSystem.lookup_link hhas]
        by_cases hnm : u = nm <;> by_cases hmem : nm ∈ gone <;> simp [hnm, hmem, eq_comm]
      · have hnone : fs.lookup (dirpath n) nm = none := by
          rw [FileSystem.lookup, FileSystem.not_hasDir.1 hhas]
          rfl
        rw [FileSystem.link, FileSystem.not_hasDir.1 hhas]
        simp [hnone]

lemma purge_digest {gone : List Bytes} (hgone : ∀ u ∈ gone, IsVersion T u) (hnodup : gone.Nodup) (md : KeyMetadata)
    (fs : FileSystem) : (gone.foldl (FileStore.purge hasher n) (md, fs)).1 =
      { md with digest := md.digest ^^^ xorAll (gone.map (digestOf hasher fs n)) } := by
  induction gone generalizing md fs with
  | nil => simp
  | cons u gone ih =>
    obtain ⟨hu, hgone⟩ := List.forall_mem_cons.1 hgone
    obtain ⟨hnew, hnodup⟩ := List.nodup_cons.1 hnodup
    have hsame : ∀ x ∈ gone, digestOf hasher (fs.remove (filepath n u)) n x = digestOf hasher fs n x := by
      intro x hx
      have hux : dirpath n ++ [x] ≠ dirpath n ++ [u] := by
        rintro heq
        obtain rfl : x = u := by simpa using heq
        exact hnew hx
      rw [digestOf, digestOf, FileSystem.size, FileSystem.size, filepath_eq (hgone x hx), FileSystem.find_concat,
        FileSystem.find_concat, FileSystem.lookup_remove, filepath_eq hu, if_neg hux]
      simp only [FileSystem.file, FileSystem.inodes_remove]
    rw [List.foldl_cons, purge, ih hgone hnodup, List.map_congr_left hsame, List.map_cons, xorAll_cons,
      UInt64.xor_assoc]
    rfl

lemma commit_lost (hs : Session T n w) (hlost : fs.lookup (dirpath n) (w.vstr T ++ [126]) = none) (close : Bool) :
    (w.commit T hasher fs close).1 = none ∧ (w.commit T hasher fs close).2.2 = fs := by
  have hfind : fs.find (tempname n (w.vstr T)) = none := by
    rw [tempname_eq hs.version, FileSystem.find_concat, hlost]
  have hrename (p : Path) : fs.rename (tempname n (w.vstr T)) p = (false, fs) := by
    rw [FileSystem.rename, hfind]
    split <;> simp_all
  simp only [Writestream.commit, hs.path, hfind, onWriteComplete, hs.name]
  rw [show VectorClock.toString T w.md.version = w.vstr T from rfl, hrename]
  cases close <;> exact ⟨rfl, rfl⟩

structure Commits (T : TurboLib) (fs fs' : FileSystem) (n v : Bytes) (inode : ℕ) (gone : List Bytes) : Prop where
  gone_iff : ∀ u, u ∈ gone ↔ (u = v ∨ u ∈ versions fs n false) ∧ VectorClock.compareNames T u v = .lessThan ∨
    u = v ∧ ∃ x, (x = v ∨ x ∈ versions fs n false) ∧ VectorClock.compareNames T x v = .greaterThan
  hasDir : ∀ p, fs'.HasDir p ↔ fs.HasDir p
  inodes : fs'.inodes = fs.inodes
  lookup : ∀ nm, fs'.lookup (dirpath n) nm = if nm ∈ gone then none else if v = nm then some inode
    else if v ++ [126] = nm then none else fs.lookup (dirpath n) nm

lemma commit_reader (hT : T.Base64) (h : KeyDir T fs n) (hs : Session T n w) {k : ℕ}
    (hk : fs.lookup (dirpath n) (w.vstr T ++ [126]) = some k) :
    ∃ gone, gone.Nodup ∧ Commits T fs (w.commit T hasher fs true).2.2 n (w.vstr T) k gone ∧
      (w.commit T hasher fs true).1 = some ⟨k, { w.md with
        digest := Writestream.digest hasher (w.vstr T) (fs.file k).content.length ^^^ xorAll (gone.map fun u =>
          Writestream.digest hasher u
            (if u = w.vstr T then (fs.file k).content.length else fs.size (filepath n u))) }⟩ := by
  have hhas := FileSystem.hasDir_of_lookup hk
  set fs₁ := (fs.link (dirpath n) (w.vstr T ++ [126]) none).link (dirpath n) (w.vstr T) (some k) with hfs₁
  have hlookup₁ (nm : Bytes) : fs₁.lookup (dirpath n) nm = if w.vstr T = nm then some k
      else if w.vstr T ++ [126] = nm then none else fs.lookup (dirpath n) nm := by
    rw [hfs₁, FileSystem.lookup_link (FileSystem.hasDir_link.2 hhas), FileSystem.lookup_link hhas]
    simp
  have hdirs₁ (p : Path) : fs₁.HasDir p ↔ fs.HasDir p := by
    rw [hfs₁, FileSystem.hasDir_link, FileSystem.hasDir_link]
  have hinodes₁ : fs₁.inodes = fs.inodes := by
    rw [hfs₁, FileSystem.inodes_link, FileSystem.inodes_link]
  have h₁ : KeyDir T fs₁ n := by
    refine h.mono (fun c hc => (hdirs₁ _).1 hc) fun nm l hl => ?_
    rw [hlookup₁] at hl
    split_ifs at hl with hv hv'
    · exact .inr (.inl (hv ▸ hs.version))
    · exact .inl ⟨l, hl⟩
  have hmem (x : Bytes) : x ∈ versions fs₁ n false ↔ x = w.vstr T ∨ x ∈ versions fs n false := by
    rw [h₁.mem_versions hT, h.mem_versions hT]
    constructor
    · rintro ⟨hx, l, hl⟩
      rw [hlookup₁] at hl
      split_ifs at hl with hv
      · exact .inl hv.symm
      · exact .inr ⟨hx, l, hl⟩
    · rintro (rfl | ⟨hx, l, hl⟩)
      · exact ⟨hs.version, k, by rw [hlookup₁, if_pos rfl]⟩
      · refine ⟨hx, ?_⟩
        rw [hlookup₁, if_neg (temp_ne_version hT hx)]
        split_ifs
        · exact ⟨k, rfl⟩
        · exact ⟨l, hl⟩
  have hall : ∀ x ∈ versions fs₁ n false, IsVersion T x := fun x hx => ((h₁.mem_versions hT).1 hx).1
  have hgone := mem_obsolete hall hs.version
  rw [hs.clock] at hgone
  have hsub : ∀ u ∈ obsolete T (versions fs₁ n false) w.md.version, IsVersion T u := by
    intro u hu
    rcases (hgone u).1 hu with hu | hu
    · exact hall u hu.1
    · exact hu.1 ▸ hs.version
  obtain ⟨hdirs₂, hinodes₂, hlookup₂⟩ := @purge_cases T hasher n _ hsub { w.md with
    digest := Writestream.digest hasher (w.vstr T) (fs.file k).content.length } fs₁
  have hfind : fs.find (tempname n (w.vstr T)) = some k := by
    rw [tempname_eq hs.version, FileSystem.find_concat, hk]
  have hrename : fs.rename (tempname n (w.vstr T)) (filepath n (w.vstr T)) = (true, fs₁) := by
    rw [tempname_eq hs.version, filepath_eq hs.version, FileSystem.rename_eq hk fun hd =>
      h.subdirs _ hd hs.version.comma]
  have hnodup : (obsolete T (versions fs₁ n false) w.md.version).Nodup := List.nodup_dedup _
  have hdigests : ∀ u ∈ obsolete T (versions fs₁ n false) w.md.version, digestOf hasher fs₁ n u =
      Writestream.digest hasher u
        (if u = w.vstr T then (fs.file k).content.length else fs.size (filepath n u)) := by
    intro u hu
    have hu := hsub u hu
    rw [digestOf, FileSystem.size, filepath_eq hu, FileSystem.find_concat, hlookup₁]
    by_cases huv : u = w.vstr T
    · rw [if_pos huv, if_pos huv.symm]
      simp only [FileSystem.file, hinodes₁]
    · rw [if_neg huv, if_neg (Ne.symm huv), if_neg (temp_ne_version hT hu), FileSystem.size, FileSystem.find_concat]
      simp only [FileSystem.file, hinodes₁]
  have hcommit : w.commit T hasher fs true =
      (some ⟨k, ((obsolete T (versions fs₁ n false) w.md.version).foldl (purge hasher n) ({ w.md with
        digest := Writestream.digest hasher (w.vstr T) (fs.file k).content.length }, fs₁)).1⟩,
        (w.commit T hasher fs true).2.1,
        ((obsolete T (versions fs₁ n false) w.md.version).foldl (purge hasher n) ({ w.md with
          digest := Writestream.digest hasher (w.vstr T) (fs.file k).content.length }, fs₁)).2) := by
    simp only [Writestream.commit, hs.path, hs.name, hfind, if_true, onWriteComplete]
    rw [show VectorClock.toString T w.md.version = w.vstr T from rfl, hrename]
    rfl
  rw [hcommit]
  refine ⟨obsolete T (versions fs₁ n false) w.md.version, hnodup, ⟨fun u => ?_,
    fun p => (hdirs₂ p).trans (hdirs₁ p), hinodes₂.trans hinodes₁, fun nm => ?_⟩, ?_⟩
  · rw [hgone]
    simp only [hmem]
  · rw [hlookup₂, hlookup₁]
  · rw [purge_digest hsub hnodup, List.map_congr_left hdigests]

lemma commit_commits (hT : T.Base64) (h : KeyDir T fs n) (hs : Session T n w) {k : ℕ}
    (hk : fs.lookup (dirpath n) (w.vstr T ++ [126]) = some k) :
    ∃ gone, Commits T fs (w.commit T hasher fs true).2.2 n (w.vstr T) k gone := by
  obtain ⟨gone, -, hcommits, -⟩ := @commit_reader T hasher fs n w hT h hs k hk
  exact ⟨gone, hcommits⟩

lemma Commits.keyDir {k : ℕ} {v : Bytes} {gone : List Bytes} (h : KeyDir T fs n) (hv : IsVersion T v)
    (hc : Commits T fs fs' n v k gone) : KeyDir T fs' n := by
  refine h.mono (fun c hc' => (hc.hasDir _).1 hc') fun nm l hl => ?_
  rw [hc.lookup] at hl
  split_ifs at hl with _ hnm
  · exact .inr (.inl (hnm ▸ hv))
  · exact .inl ⟨l, hl⟩

lemma Commits.mem_versions (hT : T.Base64) {k : ℕ} {u v : Bytes} {gone : List Bytes} (h : KeyDir T fs n)
    (hv : IsVersion T v) (hc : Commits T fs fs' n v k gone) :
    u ∈ versions fs' n false ↔ (u = v ∨ u ∈ versions fs n false) ∧ u ∉ gone := by
  rw [(hc.keyDir h hv).mem_versions hT, h.mem_versions hT]
  constructor
  · rintro ⟨hu, l, hl⟩
    rw [hc.lookup] at hl
    split_ifs at hl with hgone hnm
    · exact ⟨.inl hnm.symm, hgone⟩
    · exact ⟨.inr ⟨hu, l, hl⟩, hgone⟩
  · rintro ⟨rfl | ⟨hu, l, hl⟩, hgone⟩
    · exact ⟨hv, k, by rw [hc.lookup, if_neg hgone, if_pos rfl]⟩
    · refine ⟨hu, ?_⟩
      rw [hc.lookup, if_neg hgone, if_neg (temp_ne_version hT hu)]
      split_ifs
      · exact ⟨k, rfl⟩
      · exact ⟨l, hl⟩

lemma Commits.stored (hT : T.Base64) {k : ℕ} {v : Bytes} {gone : List Bytes} (h : KeyDir T fs n) (hv : IsVersion T v)
    (hc : Commits T fs fs' n v k gone) (u : Bytes) : FileStore.stored fs' n u =
      if u ∈ gone then none else if u = v then some (fs.file k) else FileStore.stored fs n u := by
  have hfile : fs'.file = fs.file := by
    funext l
    simp only [FileSystem.file, hc.inodes]
  have hdir := hc.keyDir h hv
  by_cases hu : IsVersion T u
  · rw [hdir.stored_eq hT hu, h.stored_eq hT hu, hc.lookup, if_neg (temp_ne_version hT hu), hfile]
    by_cases hgone : u ∈ gone
    · simp [hgone]
    · by_cases huv : u = v
      · simp [← huv, hgone]
      · simp [hgone, huv, Ne.symm huv]
  · have huv : u ≠ v := fun heq => hu (heq ▸ hv)
    rw [hdir.stored_none hT hu, h.stored_none hT hu, if_neg huv, ite_self]

lemma Commits.kept (hT : T.Base64) (hself : ∀ v, T.compare v v = .equal) {k : ℕ} {v : Bytes} {gone : List Bytes}
    (h : KeyDir T fs n) (hv : IsVersion T v) (hc : Commits T fs fs' n v k gone) :
    ∃ u ∈ versions fs' n false, u = v ∨ VectorClock.compareNames T u v = .greaterThan := by
  have hself' (u : Bytes) : VectorClock.compareNames T u u = .equal := hself _
  by_cases hvgone : v ∈ gone
  · -- a greater version is there, and it is neither smaller nor the same
    rcases (hc.gone_iff _).1 hvgone with ⟨-, hless⟩ | ⟨-, x, hx, hgreater⟩
    · rw [hself'] at hless
      cases hless
    · refine ⟨x, (hc.mem_versions hT h hv).2 ⟨hx, fun hxgone => ?_⟩, .inr hgreater⟩
      rcases (hc.gone_iff x).1 hxgone with ⟨-, hless⟩ | ⟨rfl, -⟩
      · rw [hgreater] at hless
        cases hless
      · rw [hself'] at hgreater
        cases hgreater
  · exact ⟨_, (hc.mem_versions hT h hv).2 ⟨.inl rfl, hvgone⟩, .inl rfl⟩

lemma commit_kept (hT : T.Base64) (hself : ∀ v, T.compare v v = .equal) (h : KeyDir T fs n) (hs : Session T n w)
    {k : ℕ} (hk : fs.lookup (dirpath n) (w.vstr T ++ [126]) = some k) :
    KeyDir T (w.commit T hasher fs true).2.2 n ∧
      (∀ p, (w.commit T hasher fs true).2.2.HasDir p ↔ fs.HasDir p) ∧
      ∃ u ∈ versions (w.commit T hasher fs true).2.2 n false,
        u = w.vstr T ∨ VectorClock.compareNames T u (w.vstr T) = .greaterThan := by
  obtain ⟨gone, hc⟩ := @commit_commits T hasher fs n w hT h hs k hk
  exact ⟨hc.keyDir h hs.version, hc.hasDir, hc.kept hT hself h hs.version⟩

end Directory

end FileStore

namespace KeySessions

variable {θ : Type} {T : TurboLib} {hasher : Bytes → Bytes} {memberId n : Bytes} {s : KeySessions θ}

structure Consistent (T : TurboLib) (n : Bytes) (s : KeySessions θ) : Prop where
  keyDir : KeyDir T s.store.fs n
  rooted : s.store.fs.Rooted
  live : ∀ i w, s.live i = some w → Session T n w

lemma session_update {live : ℕ → Option Writestream} (hlive : ∀ i w, live i = some w → Session T n w) {i : ℕ}
    {o : Option Writestream} (ho : ∀ w, o = some w → Session T n w) :
    ∀ j w, Function.update live i o j = some w → Session T n w := by
  intro j w hw
  by_cases hj : j = i
  · subst hj
    rw [Function.update_self] at hw
    exact ho w hw
  · rw [Function.update_of_ne hj] at hw
    exact hlive j w hw

lemma Consistent.start (hT : T.Base64) (hP : T.Printable) (hid : ∀ b ∈ memberId, isPlain b) (h : s.Consistent T n)
    (session : ℕ) (now : UInt64) (version : Bytes) (copies : ℕ) :
    (s.start T memberId n session now version copies).Consistent T n := by
  obtain ⟨hdir, hrooted, hsession⟩ := @KeyDir.write T s.store.fs n hT hP h.keyDir h.rooted ⟨memberId, now⟩ hid
    version copies
  rw [KeySessions.start]
  cases s.live session with
  | some w => exact h
  | none =>
    cases hwrite : FileStore.write T ⟨memberId, now⟩ s.store.fs n version copies with
    | mk answer fs =>
      rw [hwrite] at hdir hrooted hsession
      cases answer with
      | refused => exact ⟨hdir, hrooted, h.live⟩
      | threw => exact ⟨hdir, hrooted, h.live⟩
      | accepted w =>
        refine ⟨hdir, hrooted, session_update h.live ?_⟩
        rintro w' ⟨⟩
        exact hsession w rfl

lemma Consistent.commit (hT : T.Base64) (hself : ∀ v, T.compare v v = .equal) (h : s.Consistent T n) {w : Writestream}
    (hs : Session T n w) (session : ℕ) :
    ({ s.setFiles (w.commit T hasher s.store.fs true).2.2 with
      live := Function.update s.live session none } : KeySessions θ).Consistent T n := by
  have hlive := session_update h.live (o := none) (i := session) (by simp)
  cases hk : s.store.fs.lookup (dirpath n) (w.vstr T ++ [126]) with
  | none =>
    have hlost := (@commit_lost T hasher s.store.fs n w hs hk true).2
    exact ⟨by rw [setFiles, hlost]; exact h.keyDir, by rw [setFiles, hlost]; exact h.rooted, hlive⟩
  | some k =>
    obtain ⟨hdir, hdirs, -⟩ := @commit_kept T hasher s.store.fs n w hT hself h.keyDir hs k hk
    exact ⟨hdir, fun p q hpq => (hdirs p).2 (h.rooted p q ((hdirs _).1 hpq)), hlive⟩

lemma Consistent.ack (h : s.Consistent T n) (keyIsMine : Bytes → ℕ → Bool) (version : Bytes) (size : ℕ) :
    ({ s with store := (AckWriteCommand.run T keyIsMine ⟨n, version, size⟩ s.store).2 } :
      KeySessions θ).Consistent T n := by
  rcases AckWriteCommand.run_cases keyIsMine ⟨n, version, size⟩ s.store with hfs | hfs
  · exact ⟨by rw [hfs]; exact h.keyDir, by rw [hfs]; exact h.rooted, h.live⟩
  · refine ⟨?_, by rw [hfs]; exact h.rooted.removeAll _, h.live⟩
    rw [hfs]
    refine h.keyDir.mono (fun c hc => (FileSystem.hasDir_removeAll.1 hc).1) fun nm k hk => ?_
    rw [FileSystem.lookup_removeAll, if_pos (Or.inl (List.prefix_refl _))] at hk
    cases hk

lemma Consistent.step (hT : T.Base64) (hP : T.Printable) (hid : ∀ b ∈ memberId, isPlain b) (h : s.Consistent T n)
    (a : KeyAction) : (s.step T hasher memberId n a).Consistent T n := by
  cases a with
  | start session now version copies => exact h.start hT hP hid session now version copies
  | ack keyIsMine version size => exact h.ack keyIsMine version size
  | append session buff =>
    rw [KeySessions.step]
    cases hw : s.live session with
    | none => exact h
    | some w =>
      have hs := h.live session w hw
      -- the bytes go to the inode, whatever has become of its name
      cases hinode : w.writer.inode with
      | none =>
        simp only [Writestream.write, hinode]
        refine ⟨h.keyDir, h.rooted, session_update h.live ?_⟩
        rintro w' ⟨⟩
        exact hs
      | some inode =>
        simp only [Writestream.write, hinode]
        refine ⟨⟨h.keyDir.subdirs, h.keyDir.entries⟩, h.rooted, session_update h.live ?_⟩
        rintro w' ⟨⟩
        exact ⟨hs.name, hs.version, hs.clock, hs.path⟩
  | flush session =>
    rw [KeySessions.step]
    cases hw : s.live session with
    | none => exact h
    | some w =>
      have hs := h.live session w hw
      refine ⟨h.keyDir, h.rooted, session_update h.live ?_⟩
      rintro w' ⟨⟩
      exact ⟨hs.name, hs.version, hs.clock, hs.path⟩
  | commit session =>
    rw [KeySessions.step]
    cases hw : s.live session with
    | none => exact h
    | some w => exact h.commit hT hP.self (h.live session w hw) session

def droppedOnce : List KeyAction :=
  [.start 0 1 [] 3, .append 0 [104, 105], .commit 0, .ack (fun _ _ => false) (ascii "1,me.0G000000000=") 2,
    .start 1 2 [] 3, .append 1 [104]]

end KeySessions

end Turbopump
