import Turbopump.Common.VersionString
import Turbopump.Storage.Streams

/-! Which version a write of the store opens: the one that it names, or a fresh one. -/

namespace Turbopump

open VectorClock (IsVersion)

namespace FileStore

variable {T : TurboLib} {keys : Set Bytes} {fs : FileSystem} {live : ℕ → Option Writestream} {n v : Bytes}
  {clock : VectorClock}

lemma write_parsed (hparse : VectorClock.fromString T v = .parsed clock) (hne : clock ≠ []) (host : Host)
    (fs : FileSystem) (copies : ℕ) : write T host fs n v copies =
      if exists_ fs n v || VectorClock.isExpired clock 604800 host.now then (.refused, fs)
      else openVersion T fs n clock copies := by
  simp only [write, hparse, hne, if_false]

lemma write_version (hv : IsVersion T v) (host : Host) (fs : FileSystem) (copies : ℕ) :
    write T host fs n v copies =
      if exists_ fs n v || VectorClock.isExpired (VectorClock.ofName T v) 604800 host.now then (.refused, fs)
      else openVersion T fs n (VectorClock.ofName T v) copies :=
  write_parsed hv.fromString hv.ofName_ne_nil host fs copies

def freshVersion (T : TurboLib) (host : Host) (fs : FileSystem) (n : Bytes) : VectorClock :=
  T.increment (mergedVersion T fs n true) host.memberId host.now

lemma write_fresh (host : Host) (fs : FileSystem) (copies : ℕ) :
    write T host fs n [] copies = openVersion T fs n (freshVersion T host fs n) copies := by
  simp [write, VectorClock.fromString, readUnsigned, readSign, freshVersion]

/-- The version that is made for a write without one reads back as itself, and the key does not have it yet. -/
structure NewVersion (T : TurboLib) (host : Host) (fs : FileSystem) (n : Bytes) : Prop where
  nonempty : freshVersion T host fs n ≠ []
  parsed : VectorClock.fromString T (VectorClock.toString T (freshVersion T host fs n)) =
    .parsed (freshVersion T host fs n)
  slash : 47 ∉ VectorClock.toString T (freshVersion T host fs n)
  new : VectorClock.toString T (freshVersion T host fs n) ∉ versions fs n true

lemma NewVersion.isVersion {host : Host} (h : NewVersion T host fs n) :
    IsVersion T (VectorClock.toString T (freshVersion T host fs n)) :=
  ⟨⟨_, h.parsed, h.nonempty, rfl⟩, h.slash⟩

lemma NewVersion.ofName_toString {host : Host} (h : NewVersion T host fs n) :
    VectorClock.ofName T (VectorClock.toString T (freshVersion T host fs n)) = freshVersion T host fs n := by
  rw [VectorClock.ofName, h.parsed]

/-- What a host's versions can be made up from: its id ends nothing, and no count of the key is used up. -/
structure CanVersion (T : TurboLib) (host : Host) (fs : FileSystem) (n : Bytes) : Prop where
  memberId : ∀ b ∈ host.memberId, isPlain b
  counts : ∀ u ∈ versions fs n true, ∀ c ∈ VectorClock.ofName T u, c.count < 2 ^ 64 - 1

lemma Tidy.newVersion (hT : T.Base64) (hA : T.Advances) (h : Tidy T keys fs live) (hn : n ∈ keys) {host : Host}
    (hhost : CanVersion T host fs n) : NewVersion T host fs n := by
  have hmerged : FileStore.freshVersion T host fs n =
      T.increment (((versions fs n true).map (VectorClock.ofName T)).foldl T.merge []) host.memberId host.now := by
    rw [FileStore.freshVersion, mergedVersion, List.foldl_map]
  have hcounts : ∀ clock ∈ (versions fs n true).map (VectorClock.ofName T), ∀ c ∈ clock, c.count < 2 ^ 64 - 1 := by
    intro clock hclock
    obtain ⟨u, hu, rfl⟩ := List.mem_map.1 hclock
    exact hhost.counts u hu
  have hplain : ∀ c ∈ FileStore.freshVersion T host fs n, c.Plain := by
    intro c hc
    rw [hmerged] at hc
    refine ⟨?_, hA.counts _ _ _ hcounts c hc⟩
    rcases hA.keys _ _ _ c hc with hkey | ⟨clock, hclock, d, hd, hkey⟩
    · exact hkey ▸ hhost.memberId
    · obtain ⟨u, hu, rfl⟩ := List.mem_map.1 hclock
      exact hkey ▸ (((h.keyDir hn).isVersion hT hu).plain d hd).key
  obtain ⟨hne, hlen⟩ := hA.bounded (mergedVersion T fs n true) host.memberId host.now
  have hlen' : (FileStore.freshVersion T host fs n).length < 2 ^ 32 := lt_of_le_of_lt hlen (by decide)
  have hparsed := VectorClock.fromString_toString hT hplain hlen'
  refine ⟨hne, hparsed, (VectorClock.isVersion_toString hT hne hplain hlen').slash, fun hmem => ?_⟩
  refine hA.fresh _ host.memberId host.now hcounts ?_
  rw [← hmerged]
  exact List.mem_map.2 ⟨_, hmem, by rw [VectorClock.ofName, hparsed]⟩

theorem Tidy.take (hT : T.Base64) (hk : KeySpace keys) (h : Tidy T keys fs live) (hn : n ∈ keys)
    {i : ℕ} (hi : live i = none) (hv : v = [] ∨ IsVersion T v) {host : Host}
    (hhost : v = [] → NewVersion T host fs n) (copies : ℕ) :
    FileStore.write T host fs n v copies = (.refused, fs) ∨
    ∃ w fs', FileStore.write T host fs n v copies = (.accepted w, fs') ∧ w.name = n ∧ (v ≠ [] → w.vstr T = v) ∧
      w.md = { version := w.md.version, totalCopies := copies } ∧ w.vstr T ∉ versions fs n true ∧ written fs' w = [] ∧
      Tidy T keys fs' (Function.update live i (some w)) ∧
      (∀ n' ∈ keys, ∀ u, stored fs' n' u = stored fs n' u) ∧
      ∀ j w', live j = some w' → written fs' w' = written fs w' := by
  rcases hv with rfl | hv
  · have hfresh := hhost rfl
    obtain ⟨w, fs', hopen, hwname, hvstr, hmd, hrest⟩ := h.openVersion hT hk hn hfresh.isVersion hfresh.new hi copies
    rw [hfresh.ofName_toString] at hopen hmd
    refine Or.inr ⟨w, fs', ?_, hwname, by simp, by rw [hmd], by rw [hvstr]; exact hfresh.new, hrest⟩
    rw [write_fresh, hopen]
  · rw [write_version hv]
    by_cases hex : exists_ fs n v || VectorClock.isExpired (VectorClock.ofName T v) 604800 host.now
    · exact Or.inl (by rw [if_pos hex])
    · have hnew : v ∉ versions fs n true := by
        rw [Bool.or_eq_true, not_or] at hex
        simpa [exists_] using hex.1
      obtain ⟨w, fs', hopen, hwname, hvstr, hmd, hrest⟩ := h.openVersion hT hk hn hv hnew hi copies
      exact Or.inr ⟨w, fs', by rw [if_neg hex, hopen], hwname, fun _ => hvstr, by rw [hmd], by rw [hvstr]; exact hnew,
        hrest⟩

end FileStore

end Turbopump
