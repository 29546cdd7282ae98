import Turbopump.Common.ReferenceClocks

/-! Versions that are merged and incremented: when the result is after all of them. -/

namespace Turbopump

namespace TurboLib

def NotAfter (T : TurboLib) (u v : VectorClock) : Prop := T.compare u v = .lessThan ∨ T.compare u v = .equal

def Fits (key : Bytes) (v : VectorClock) : Prop :=
  (∀ c ∈ v, c.count < 2 ^ 64 - 1) ∧ (key :: v.map Clock.key).dedup.length ≤ 6

/-- What is relied on of `bounded_time_vector` where conflicts are resolved: versions are partially ordered, `merge`
gives an upper bound as long as the keys are six or fewer, and nothing that is in neither version, `increment` gives a
version that is after the one before, and merging that into none changes nothing. -/
structure Ascends (T : TurboLib) : Prop where
  symm : ∀ u v, T.compare u v = .equal → T.compare v u = .equal
  greater : ∀ u v, T.compare u v = .greaterThan ↔ T.compare v u = .lessThan
  trans : ∀ u v w, T.NotAfter u v → T.NotAfter v w → T.NotAfter u w
  mem : ∀ u v, ∀ c ∈ T.merge u v, c ∈ u ∨ c ∈ v
  upper : ∀ u v, ((u ++ v).map Clock.key).dedup.length ≤ 6 → T.NotAfter u (T.merge u v) ∧ T.NotAfter v (T.merge u v)
  increment : ∀ v id now, Fits id v → T.compare v (T.increment v id now) = .lessThan
  alone : ∀ v id now, T.merge [] (T.increment v id now) = T.increment v id now

variable {T : TurboLib}

lemma dedup_length_le {l m : List Bytes} (h : l ⊆ m) : l.dedup.length ≤ m.dedup.length := by
  apply List.Subperm.length_le
  apply (List.nodup_dedup l).subperm
  intro key hkey
  rw [List.mem_dedup] at hkey ⊢
  exact h hkey

lemma Fits.mono {key : Bytes} {u v : VectorClock} (h : Fits key v) (hsub : u ⊆ v) : Fits key u := by
  refine ⟨fun c hc => h.1 c (hsub hc), (dedup_length_le ?_).trans h.2⟩
  exact List.cons_subset_cons key (List.map_subset Clock.key hsub)

namespace Ascends

variable (hA : T.Ascends)
include hA

lemma less_of_notAfter {u v w : VectorClock} (huv : T.NotAfter u v) (hvw : T.compare v w = .lessThan) :
    T.compare u w = .lessThan := by
  refine (hA.trans u v w huv (.inl hvw)).resolve_right fun hequal => ?_
  -- then `w` would not be after `v`
  have hback : T.NotAfter w v := hA.trans w u v (.inr (hA.symm u w hequal)) huv
  rcases hback with hless | hsame
  · rw [(hA.greater v w).2 hless] at hvw
    cases hvw
  · rw [hA.symm w v hsame] at hvw
    cases hvw

lemma mem_merged {vs : List VectorClock} {u : VectorClock} {c : Clock} (h : c ∈ vs.foldl T.merge u) :
    c ∈ u ∨ c ∈ vs.flatten := by
  induction vs generalizing u with
  | nil => exact .inl h
  | cons v vs ih =>
    rw [List.flatten_cons, List.mem_append]
    rcases ih h with h | h
    · exact (hA.mem u v c h).imp_right .inl
    · exact .inr (.inr h)

lemma merged_upper {vs : List VectorClock} {u : VectorClock}
    (hkeys : ((u ++ vs.flatten).map Clock.key).dedup.length ≤ 6) {v : VectorClock} (hv : v = u ∨ v ∈ vs)
    (hself : ∀ v, T.compare v v = .equal) : T.NotAfter v (vs.foldl T.merge u) := by
  induction vs generalizing u v with
  | nil =>
    obtain rfl := hv.resolve_right (by simp)
    exact .inr (hself v)
  | cons w vs ih =>
    have hpair : ((u ++ w).map Clock.key).dedup.length ≤ 6 := by
      refine (dedup_length_le (List.map_subset _ ?_)).trans hkeys
      rw [List.flatten_cons, ← List.append_assoc]
      exact List.subset_append_left _ _
    obtain ⟨hu, hw⟩ := hA.upper u w hpair
    have hrest : ((T.merge u w ++ vs.flatten).map Clock.key).dedup.length ≤ 6 := by
      refine (dedup_length_le (List.map_subset _ ?_)).trans hkeys
      intro c hc
      rw [List.flatten_cons, List.mem_append, List.mem_append]
      rcases List.mem_append.1 hc with hc | hc
      · exact (hA.mem u w c hc).imp_right .inl
      · exact .inr (.inr hc)
    have hmerge : T.NotAfter (T.merge u w) (vs.foldl T.merge (T.merge u w)) := ih hrest (.inl rfl)
    rcases hv with rfl | hv
    · exact hA.trans _ _ _ hu hmerge
    · rcases List.mem_cons.1 hv with rfl | hv
      · exact hA.trans _ _ _ hw hmerge
      · exact ih hrest (.inr hv)

theorem less_increment (hself : ∀ v, T.compare v v = .equal) {vs : List VectorClock} {id : Bytes}
    (hfits : Fits id vs.flatten) (now : UInt64) {v : VectorClock} (hv : v ∈ vs) :
    T.compare v (T.increment (vs.foldl T.merge []) id now) = .lessThan := by
  have hmerged : Fits id (vs.foldl T.merge []) := hfits.mono fun c hc => (hA.mem_merged hc).resolve_left (by simp)
  have hkeys : (([] ++ vs.flatten).map Clock.key).dedup.length ≤ 6 :=
    (dedup_length_le (List.subset_cons_self id _)).trans hfits.2
  exact hA.less_of_notAfter (hA.merged_upper hkeys (.inr hv) hself) (hA.increment _ id now hmerged)

end Ascends

end TurboLib

namespace Clocks

variable {u v w : VectorClock} {key : Bytes} {now : UInt64}

lemma covers_iff : covers u v ↔ ∀ c ∈ u, ∃ d ∈ v, d.key = c.key ∧ notAfter c d := by
  simp [covers]

lemma covers_trans (h : covers u v) (h' : covers v w) : covers u w := by
  rw [covers_iff] at *
  intro c hc
  obtain ⟨d, hd, hkey, hafter⟩ := h c hc
  obtain ⟨e, he, hkey', hafter'⟩ := h' d hd
  exact ⟨e, he, hkey'.trans hkey, notAfter_trans hafter hafter'⟩

lemma notAfter_iff_covers : TurboLib.latest.NotAfter u v ↔ covers u v := by
  show compare u v = .lessThan ∨ compare u v = .equal ↔ _
  rw [compare]
  cases covers u v <;> cases covers v u <;> simp

lemma less_iff_covers : TurboLib.latest.compare u v = .lessThan ↔ covers u v ∧ ¬ covers v u := by
  show compare u v = .lessThan ↔ _
  rw [compare]
  cases covers u v <;> cases covers v u <;> simp

lemma nodup_incrementLatest : ((incrementLatest v key now).map Clock.key).Nodup := by
  rw [incrementLatest, List.map_take, List.map_cons, next_key]
  refine (List.take_sublist _ _).nodup (List.nodup_cons.2 ⟨?_, nodup_mergeLatest (by simp) _⟩)
  rw [List.mem_map]
  rintro ⟨c, hc, hkey⟩
  have hmem := (mem_mergeLatest hc).resolve_left (by simp)
  simp [hkey] at hmem

lemma incrementLatest_eq (h : TurboLib.Fits key v) :
    incrementLatest v key now = next v key now :: mergeLatest [] (v.filter (·.key ≠ key)) := by
  have hlength : (next v key now :: mergeLatest [] (v.filter (·.key ≠ key))).length ≤ 6 := by
    have hnodup : (key :: (mergeLatest [] (v.filter (·.key ≠ key))).map Clock.key).Nodup := by
      refine List.nodup_cons.2 ⟨?_, nodup_mergeLatest (by simp) _⟩
      rw [List.mem_map]
      rintro ⟨c, hc, hkey⟩
      have hmem := (mem_mergeLatest hc).resolve_left (by simp)
      simp [hkey] at hmem
    have hsubset : key :: (mergeLatest [] (v.filter (·.key ≠ key))).map Clock.key ⊆ key :: v.map Clock.key := by
      refine List.cons_subset_cons key (List.map_subset _ fun c hc => ?_)
      exact List.mem_of_mem_filter ((mem_mergeLatest hc).resolve_left (by simp))
    have hle := (TurboLib.dedup_length_le hsubset).trans h.2
    rw [hnodup.dedup] at hle
    simpa using hle
  rw [incrementLatest, List.take_of_length_le hlength]

lemma covers_incrementLatest (h : TurboLib.Fits key v) : covers v (incrementLatest v key now) := by
  rw [covers_iff, incrementLatest_eq h]
  intro c hc
  by_cases hkey : c.key = key
  · exact ⟨_, List.mem_cons_self, (next_key v key now).trans hkey.symm, notAfter_total (next_after now hc hkey)⟩
  · have hmem : c ∈ v.filter (·.key ≠ key) := List.mem_filter.2 ⟨hc, by simpa using hkey⟩
    obtain ⟨d, hd, hsame, hafter⟩ := mergeLatest_covers (u := []) (.inr hmem)
    exact ⟨d, List.mem_cons_of_mem _ hd, hsame, hafter⟩

lemma not_covers_incrementLatest : ¬ covers (incrementLatest v key now) v := by
  rw [covers_iff]
  intro h
  obtain ⟨c, hc, hkey, hafter⟩ := h (next v key now) (by simp [incrementLatest])
  exact next_after now hc (hkey.trans (next_key v key now)) hafter

lemma count_next (h : ∀ c ∈ v, c.count < 2 ^ 64 - 1) : (next v key now).count < 2 ^ 64 := by
  rw [next]
  split
  case h_1 => simp
  case h_2 c hc =>
    have hcount := h c (newest_some hc).1
    split_ifs
    · simp
    · show c.count + 1 < 2 ^ 64
      omega

lemma increment_latest (h : ∀ c ∈ v, c.count < 2 ^ 64 - 1) :
    TurboLib.latest.increment v key now = incrementLatest v key now := by
  show (incrementLatest v key now).map (fun c => { c with count := c.count % 2 ^ 64 }) = _
  refine (List.map_congr_left fun c hc => ?_).trans (List.map_id' _)
  have hcount : c.count < 2 ^ 64 := by
    rcases TurboLib.latest_mem hc with rfl | hc
    · exact count_next h
    · exact (h c hc).trans (by omega)
  rw [Nat.mod_eq_of_lt hcount]

end Clocks

namespace TurboLib

lemma latest_ascends : latest.Ascends where
  symm u v := by
    show Clocks.compare u v = .equal → Clocks.compare v u = .equal
    rw [Clocks.compare, Clocks.compare]
    cases Clocks.covers u v <;> cases Clocks.covers v u <;> simp
  greater u v := by
    show Clocks.compare u v = .greaterThan ↔ Clocks.compare v u = .lessThan
    rw [Clocks.compare, Clocks.compare]
    cases Clocks.covers u v <;> cases Clocks.covers v u <;> simp
  trans u v w huv hvw := by
    rw [Clocks.notAfter_iff_covers] at *
    exact Clocks.covers_trans huv hvw
  mem u v c hc := Clocks.mem_mergeLatest hc
  upper u v _ := by
    rw [Clocks.notAfter_iff_covers, Clocks.notAfter_iff_covers, Clocks.covers_iff, Clocks.covers_iff]
    exact ⟨fun c hc => Clocks.mergeLatest_covers (.inl hc), fun c hc => Clocks.mergeLatest_covers (.inr hc)⟩
  increment v id now hfits := by
    rw [Clocks.increment_latest hfits.1, Clocks.less_iff_covers]
    exact ⟨Clocks.covers_incrementLatest hfits, Clocks.not_covers_incrementLatest⟩
  alone v id now := by
    refine (Clocks.mergeLatest_append (u := []) ?_).trans (List.nil_append _)
    have hkeys : (latest.increment v id now).map Clock.key = (Clocks.incrementLatest v id now).map Clock.key := by
      simp [latest, Function.comp_def]
    rw [List.nil_append, hkeys]
    exact Clocks.nodup_incrementLatest

end TurboLib

end Turbopump
