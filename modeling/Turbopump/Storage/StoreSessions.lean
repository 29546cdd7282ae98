import Turbopump.Lib.Runs
import Turbopump.Storage.SimpleNames
import Turbopump.Storage.Tidy

/-! The store with all its write sessions, which a crash may leave behind unfinished, and its removals. -/

namespace Turbopump

open FilePaths (IsComponent isComponent_of_mem)

structure StoreSessions where
  fs : FileSystem
  live : ℕ → Option Writestream := fun _ => none
  names : List Bytes := []

inductive SessionAction where
  | write (session : ℕ) (host : Host) (name version : Bytes) (copies : ℕ)
  | append (session : ℕ) (buff : Bytes)
  | commit (session : ℕ)
  | crash
  | remove (name : Bytes)

namespace StoreSessions

variable (T : TurboLib) (hasher : Bytes → Bytes)

/-- A name with `..` in it leads to another directory than its own; it is left alone here. -/
def step (s : StoreSessions) : SessionAction → StoreSessions
  | .write session host name version copies =>
    if [46, 46] ∈ components name then s
    else match s.live session, FileStore.write T host s.fs name version copies with
      | none, (.accepted w, fs) => ⟨fs, Function.update s.live session (some w), name :: s.names⟩
      | none, (_, fs) => ⟨fs, s.live, name :: s.names⟩
      | some _, _ => s
  | .append session buff => match s.live session with
    | none => s
    | some w => { s with
        fs := (w.write s.fs buff).2
        live := Function.update s.live session (some (w.write s.fs buff).1) }
  | .commit session => match s.live session with
    | none => s
    | some w => { s with fs := (w.commit T hasher s.fs true).2.2, live := Function.update s.live session none }
  | .crash => { s with live := fun _ => none }
  | .remove name => if [46, 46] ∈ components name then s else { s with fs := (FileStore.remove s.fs name).2 }

end StoreSessions

namespace FileSystem

structure Sane (fs : FileSystem) : Prop where
  rooted : fs.Rooted
  dirs : ∀ p, fs.HasDir p → ∀ c ∈ p, IsComponent c ∧ c ≠ [46, 46]
  files : ∀ d nm k, fs.lookup d nm = some k → IsComponent nm

namespace Sane

variable {fs : FileSystem} {p : Path}

lemma empty : FileSystem.empty.Sane where
  rooted := .empty
  dirs := by
    intro p hp c hc
    obtain rfl : p = [] := by
      by_contra hne
      simp [HasDir, FileSystem.empty, SortedMap.get_insert, Ne.symm hne] at hp
    simp at hc
  files d nm k hk := by
    have hnone := (FileStore.Vacant.empty Set.univ).linked d nm k hk
    simp [FileSystem.empty] at hnone

lemma createDirectories (h : fs.Sane) (hp : ∀ c ∈ p, IsComponent c ∧ c ≠ [46, 46]) : (fs.createDirectories p).Sane where
  rooted := h.rooted.createDirectories p
  dirs q hq c hc := by
    rcases hasDir_createDirectories.1 hq with hq | hpre
    · exact h.dirs q hq c hc
    · exact hp c (hpre.subset hc)
  files d nm k hk := h.files d nm k (lookup_createDirectories p ▸ hk)

lemma of_dirs {fs' : FileSystem} (h : fs.Sane) (heq : fs'.dirs = fs.dirs) : fs'.Sane where
  rooted p q hpq := by
    rw [HasDir, heq] at hpq ⊢
    exact h.rooted p q hpq
  dirs p hp := by
    rw [HasDir, heq] at hp
    exact h.dirs p hp
  files d nm k hk := by
    rw [lookup, heq] at hk
    exact h.files d nm k hk

lemma link (h : fs.Sane) (d : Path) {nm : Bytes} (hnm : IsComponent nm) (o : Option ℕ) : (fs.link d nm o).Sane where
  rooted p q hpq := hasDir_link.2 (h.rooted p q (hasDir_link.1 hpq))
  dirs p hp := h.dirs p (hasDir_link.1 hp)
  files d' nm' k hk := by
    by_cases hsame : d = d' ∧ nm = nm'
    · exact hsame.2 ▸ hnm
    · rw [lookup_link_none o hsame] at hk
      exact h.files d' nm' k hk

lemma remove (h : fs.Sane) (p : Path) : (fs.remove p).Sane where
  rooted q r hqr := hasDir_remove.2 (h.rooted q r (hasDir_remove.1 hqr))
  dirs q hq := h.dirs q (hasDir_remove.1 hq)
  files d nm k hk := by
    rw [lookup_remove] at hk
    split_ifs at hk
    exact h.files d nm k hk

lemma removeAll (h : fs.Sane) (p : Path) : (fs.removeAll p).Sane where
  rooted := h.rooted.removeAll p
  dirs q hq := h.dirs q (hasDir_removeAll.1 hq).1
  files d nm k hk := by
    rw [lookup_removeAll] at hk
    split_ifs at hk
    exact h.files d nm k hk

lemma openWrite (h : fs.Sane) (hp : ∀ c ∈ p, IsComponent c) : (fs.openWrite p).2.Sane := by
  rcases openWrite_cases fs p with hopen | ⟨d, nm, k, rfl, -, hopen⟩ | ⟨d, nm, rfl, -, -, hopen⟩ <;> rw [hopen]
  · exact h
  · exact h
  · exact (h.link d (hp nm (by simp)) _).of_dirs rfl

lemma rename (h : fs.Sane) (old : Path) (hp : ∀ c ∈ p, IsComponent c) : (fs.rename old p).2.Sane := by
  rcases rename_cases fs old p with hrename | ⟨d, nm, d', nm', k, -, rfl, hk, -, hrename⟩ <;> rw [hrename]
  · exact h
  · exact (h.link d (h.files d nm k hk) none).link d' (hp nm' (by simp)) (some k)

end Sane

end FileSystem

namespace FileStore

variable {T : TurboLib} {hasher : Bytes → Bytes} {fs : FileSystem} {n : Bytes}

lemma openVersion_sane (h : fs.Sane) (hn : [46, 46] ∉ components n) (clock : VectorClock) (copies : ℕ) :
    (openVersion T fs n clock copies).2.Sane := by
  have hdirs : (fs.createDirectories (dirpath n)).Sane := h.createDirectories fun c hc =>
    ⟨isComponent_of_mem hc, fun hup => hn (hup ▸ hc)⟩
  have hopen := hdirs.openWrite (p := tempname n (VectorClock.toString T clock)) fun c hc => isComponent_of_mem hc
  rw [openVersion]
  split
  case h_1 heq =>
    rw [heq] at hopen
    exact hopen
  case h_2 heq =>
    rw [heq] at hopen
    exact hopen.of_dirs rfl

lemma write_sane (h : fs.Sane) (hn : [46, 46] ∉ components n) (host : Host) (version : Bytes) (copies : ℕ) :
    (write T host fs n version copies).2.Sane := by
  rw [write]
  cases VectorClock.fromString T version with
  | threw => exact h
  | failed => exact openVersion_sane h hn _ copies
  | parsed clock =>
    dsimp only
    split_ifs
    · exact openVersion_sane h hn _ copies
    · exact h
    · exact openVersion_sane h hn _ copies

lemma purge_sane (gone : List Bytes) {md : KeyMetadata} (h : fs.Sane) :
    (gone.foldl (purge hasher n) (md, fs)).2.Sane := by
  induction gone generalizing md fs with
  | nil => exact h
  | cons u gone ih => exact ih (h.remove (filepath n u))

lemma commit_sane (h : fs.Sane) (w : Writestream) : (w.commit T hasher fs true).2.2.Sane := by
  simp only [Writestream.commit, if_true, onWriteComplete]
  have hrename := h.rename (tempname w.name (VectorClock.toString T w.md.version))
    (p := filepath w.name (VectorClock.toString T w.md.version)) fun c hc => isComponent_of_mem hc
  split
  case h_1 heq =>
    rw [heq] at hrename
    exact hrename
  case h_2 heq =>
    rw [heq] at hrename
    exact purge_sane _ hrename

end FileStore

namespace StoreSessions

variable {T : TurboLib} {hasher : Bytes → Bytes} {s : StoreSessions}

lemma sane_step (h : s.fs.Sane) (a : SessionAction) : (s.step T hasher a).fs.Sane := by
  cases a with
  | write session host name version copies =>
    rw [step]
    split_ifs with hup
    · exact h
    · have hwrite := @FileStore.write_sane T s.fs name h hup host version copies
      cases s.live session with
      | some w => exact h
      | none =>
        cases hanswer : FileStore.write T host s.fs name version copies with
        | mk answer fs =>
          rw [hanswer] at hwrite
          cases answer <;> exact hwrite
  | append session buff =>
    rw [step]
    cases s.live session with
    | none => exact h
    | some w =>
      refine h.of_dirs ?_
      cases hinode : w.writer.inode with
      | none => simp only [Writestream.write, hinode]
      | some inode =>
        simp only [Writestream.write, hinode]
        rfl
  | commit session =>
    rw [step]
    cases s.live session with
    | none => exact h
    | some w => exact FileStore.commit_sane h w
  | crash => exact h
  | remove name =>
    rw [step]
    split_ifs
    · exact h
    · exact h.removeAll _

lemma sane_run (actions : List SessionAction) : (actions.foldl (step T hasher) { fs := .empty }).fs.Sane :=
  foldl_invariant (I := fun s : StoreSessions => s.fs.Sane) (fun _ a h => sane_step h a) .empty actions

end StoreSessions

end Turbopump
