import Turbopump.Common.ReferenceClocks
import Turbopump.Storage.Opening

/-! A version that is stored already, finished or in progress: whether a write of it is turned away. -/

namespace Turbopump

open VectorClock (IsVersion)

namespace FileStore

variable {T : TurboLib} {fs : FileSystem} {n v : Bytes} {clock : VectorClock}

/-- The version that the string stands for is not written again: the stream is dead, and no file is touched. -/
def Guarded (T : TurboLib) (host : Host) (fs : FileSystem) (n v : Bytes) (clock : VectorClock) (copies : ℕ) : Prop :=
  (∃ u ∈ versions fs n true, VectorClock.ofName T u = clock) → write T host fs n v copies = (.refused, fs)

lemma openVersion_accepts (hv : IsVersion T (VectorClock.toString T clock))
    (hdir : ¬ fs.HasDir (dirpath n ++ [VectorClock.toString T clock ++ [126]])) (copies : ℕ) :
    ∃ w fs', openVersion T fs n clock copies = (.accepted w, fs') := by
  have hdir' : ¬ (fs.createDirectories (dirpath n)).HasDir (dirpath n ++ [VectorClock.toString T clock ++ [126]]) := by
    rw [FileSystem.hasDir_createDirectories]
    rintro (hd | hpre)
    · exact hdir hd
    · simpa using hpre.length_le
  have hhas : (fs.createDirectories (dirpath n)).HasDir (dirpath n) := by simp
  obtain ⟨k, fs₁, hopen⟩ : ∃ k fs₁, (fs.createDirectories (dirpath n)).openWrite
      (tempname n (VectorClock.toString T clock)) = (some k, fs₁) := by
    rw [tempname_eq hv]
    cases hold : (fs.createDirectories (dirpath n)).lookup (dirpath n) (VectorClock.toString T clock ++ [126]) with
    | none => exact ⟨_, _, FileSystem.openWrite_new hhas hdir' hold⟩
    | some k => exact ⟨_, _, FileSystem.openWrite_old hdir' hold⟩
  exact ⟨_, _, by rw [openVersion, hopen]⟩

lemma KeyDir.mem_versions_of_equal (hT : T.Base64) (h : KeyDir T fs n)
    (hparse : VectorClock.fromString T v = .parsed clock) (hne : clock ≠ []) :
    (∃ u ∈ versions fs n true, VectorClock.ofName T u = clock) ↔ VectorClock.toString T clock ∈ versions fs n true := by
  constructor
  · rintro ⟨u, hu, rfl⟩
    rw [(h.isVersion hT hu).toString_ofName]
    exact hu
  · intro hmem
    have hslash := (h.isVersion hT hmem).slash
    exact ⟨_, hmem, (VectorClock.isVersion_of_parsed hT hparse hne hslash).2⟩

lemma KeyDir.guarded_iff (hT : T.Base64) (h : KeyDir T fs n) (hparse : VectorClock.fromString T v = .parsed clock)
    (hne : clock ≠ []) (host : Host) (copies : ℕ) : Guarded T host fs n v clock copies ↔
      VectorClock.toString T clock = v ∨ VectorClock.isExpired clock 604800 host.now = true ∨
        VectorClock.toString T clock ∉ versions fs n true := by
  rw [Guarded, h.mem_versions_of_equal hT hparse hne, write_parsed hparse hne]
  constructor
  · intro hguarded
    by_contra hnone
    push Not at hnone
    obtain ⟨hcanonical, hexpired, hmem⟩ := hnone
    have hnew : exists_ fs n v = false := by
      rw [exists_, decide_eq_false_iff_not]
      intro hv
      have hver := h.isVersion hT hv
      have hname : VectorClock.ofName T v = clock := by rw [VectorClock.ofName, hparse]
      exact hcanonical (hname ▸ hver.toString_ofName)
    obtain ⟨w, fs', hopen⟩ := openVersion_accepts (n := n) (h.isVersion hT hmem)
      (fun hd => h.subdirs _ hd (by simp [(h.isVersion hT hmem).comma])) copies
    have hrefused := hguarded hmem
    rw [hnew, Bool.eq_false_iff.2 hexpired, Bool.or_self, if_neg Bool.false_ne_true, hopen] at hrefused
    simp at hrefused
  · rintro hcase hmem
    rcases hcase with rfl | hexpired | hnone
    · rw [exists_, decide_eq_true hmem, Bool.true_or, if_pos rfl]
    · rw [hexpired, Bool.or_true, if_pos rfl]
    · exact absurd hmem hnone

theorem duplicate_refused_iff (hT : T.Base64) (h : KeyDir T fs n)
    (hparse : VectorClock.fromString T v = .parsed clock) (hne : clock ≠ []) (host : Host) (copies : ℕ) :
    Guarded T host fs n v clock copies ↔
      VectorClock.toString T clock = v ∨ VectorClock.isExpired clock 604800 host.now = true ∨
        VectorClock.toString T clock ∉ versions fs n true :=
  h.guarded_iff hT hparse hne host copies

section Example

def oneClock : VectorClock := [⟨ascii "a", 1, 0⟩]

def printed : Bytes := VectorClock.toString .reference oneClock

lemma printed_isVersion : IsVersion .reference printed := by
  refine VectorClock.isVersion_toString TurboLib.reference_base64 (by decide) ?_ (by decide)
  intro c hc
  obtain rfl := List.mem_singleton.1 hc
  exact ⟨by decide +kernel, by decide⟩

lemma printed_parse : VectorClock.fromString .reference printed = .parsed oneClock := by decide +kernel

lemma padded_parse : VectorClock.fromString .reference (48 :: printed) = .parsed oneClock := by decide +kernel

lemma exists_inprogress : ∃ fs, KeyDir .reference fs (ascii "k") ∧ printed ∈ versions fs (ascii "k") true := by
  have htidy := (Vacant.empty {ascii "k"}).tidy (T := .reference)
  have hnew : printed ∉ versions .empty (ascii "k") true := by decide +kernel
  obtain ⟨w, fs, -, hname, hvstr, -, -, hopened, -⟩ := htidy.openVersion TurboLib.reference_base64 (KeySpace.single _)
    rfl printed_isVersion hnew (i := 0) rfl 3
  obtain ⟨k, ho⟩ := hopened.opened 0 w (Function.update_self ..)
  refine ⟨fs, hopened.keyDir rfl, (hopened.mem_versions_inprogress TurboLib.reference_base64 rfl).2 (Or.inr ?_)⟩
  have hlinked := ho.linked
  rw [hname, hvstr] at hlinked
  exact ⟨printed_isVersion, k, hlinked⟩

theorem duplicate_refused_iff_example : ∃ fs, KeyDir .reference fs (ascii "k") ∧
    printed ∈ versions fs (ascii "k") true ∧
    Guarded .reference ⟨ascii "me", 5⟩ fs (ascii "k") printed oneClock 3 := by
  obtain ⟨fs, hdir, hmem⟩ := exists_inprogress
  exact ⟨fs, hdir, hmem, (duplicate_refused_iff TurboLib.reference_base64 hdir printed_parse (by decide) _ 3).2
    (Or.inl rfl)⟩

theorem not_guarded_when_padded : ∃ fs, KeyDir .reference fs (ascii "k") ∧ printed ∈ versions fs (ascii "k") true ∧
    ¬ Guarded .reference ⟨ascii "me", 5⟩ fs (ascii "k") (48 :: printed) oneClock 3 := by
  obtain ⟨fs, hdir, hmem⟩ := exists_inprogress
  refine ⟨fs, hdir, hmem, fun hguarded => ?_⟩
  rw [hdir.guarded_iff TurboLib.reference_base64 padded_parse (by decide)] at hguarded
  rcases hguarded with hcanonical | hexpired | hnone
  · exact absurd (congrArg List.length hcanonical) (by decide +kernel)
  · exact absurd hexpired (by decide +kernel)
  · exact hnone hmem

end Example

end FileStore

end Turbopump
