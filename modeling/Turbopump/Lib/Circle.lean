import Turbopump.Lib.SortedMap

/-! Points on a circle: which of a set of nodes a point belongs to, and what a new node takes over. -/

namespace Circle

variable {α : Type} [LinearOrder α] {s t : Set α} {n n' b h : α}

/-- The first node at or after a point, or the first of all nodes when there is none. -/
structure Owns (s : Set α) (n h : α) : Prop where
  node : n ∈ s
  first : (h ≤ n ∧ ∀ m ∈ s, h ≤ m → n ≤ m) ∨ ((∀ m ∈ s, m < h) ∧ ∀ m ∈ s, n ≤ m)

lemma Owns.unique (hn : Owns s n h) (hn' : Owns s n' h) : n = n' := by
  rcases hn.first with ⟨hle, hmin⟩ | ⟨hall, hmin⟩ <;> rcases hn'.first with ⟨hle', hmin'⟩ | ⟨hall', hmin'⟩
  · exact le_antisymm (hmin n' hn'.node hle') (hmin' n hn.node hle)
  · exact absurd hle (not_le.2 (hall' n hn.node))
  · exact absurd hle' (not_le.2 (hall n' hn'.node))
  · exact le_antisymm (hmin n' hn'.node) (hmin' n hn.node)

lemma Owns.mono (hn : Owns s n h) (hts : t ⊆ s) (hnt : n ∈ t) : Owns t n h := by
  refine ⟨hnt, ?_⟩
  rcases hn.first with ⟨hle, hmin⟩ | ⟨hall, hmin⟩
  · exact Or.inl ⟨hle, fun m hm hhm => hmin m (hts hm) hhm⟩
  · exact Or.inr ⟨fun m hm => hall m (hts hm), fun m hm => hmin m (hts hm)⟩

lemma owns_self (hb : b ∈ s) : Owns s b b := ⟨hb, Or.inl ⟨le_rfl, fun _ _ hm => hm⟩⟩

lemma Owns.insert (hn : Owns s n h) (b : α) : Owns (insert b s) n h ∨ Owns (insert b s) b h := by
  rcases hn.first with ⟨hle, hmin⟩ | ⟨hall, hmin⟩
  · by_cases hb : h ≤ b ∧ b < n
    · refine Or.inr ⟨Set.mem_insert _ _, Or.inl ⟨hb.1, ?_⟩⟩
      rintro m (rfl | hm) hhm
      · exact le_rfl
      · exact hb.2.le.trans (hmin m hm hhm)
    · refine Or.inl ⟨Set.mem_insert_of_mem _ hn.node, Or.inl ⟨hle, ?_⟩⟩
      rintro m (rfl | hm) hhm
      · exact not_lt.1 fun hlt => hb ⟨hhm, hlt⟩
      · exact hmin m hm hhm
  · by_cases hb : h ≤ b
    · refine Or.inr ⟨Set.mem_insert _ _, Or.inl ⟨hb, ?_⟩⟩
      rintro m (rfl | hm) hhm
      · exact le_rfl
      · exact absurd hhm (not_le.2 (hall m hm))
    · have hall' : ∀ m ∈ Insert.insert b s, m < h := by
        rintro m (rfl | hm)
        · exact not_le.1 hb
        · exact hall m hm
      rcases le_total n b with hnb | hbn
      · refine Or.inl ⟨Set.mem_insert_of_mem _ hn.node, Or.inr ⟨hall', ?_⟩⟩
        rintro m (rfl | hm)
        · exact hnb
        · exact hmin m hm
      · refine Or.inr ⟨Set.mem_insert _ _, Or.inr ⟨hall', ?_⟩⟩
        rintro m (rfl | hm)
        · exact le_rfl
        · exact hbn.trans (hmin m hm)

structure Next (s : Set α) (b n : α) : Prop where
  node : n ∈ s
  ne : n ≠ b
  first : (b < n ∧ ∀ m ∈ s, b < m → n ≤ m) ∨ ((∀ m ∈ s, m ≤ b) ∧ ∀ m ∈ s, n ≤ m)

lemma Next.unique (hn : Next s b n) (hn' : Next s b n') : n = n' := by
  rcases hn.first with ⟨hlt, hmin⟩ | ⟨hall, hmin⟩ <;> rcases hn'.first with ⟨hlt', hmin'⟩ | ⟨hall', hmin'⟩
  · exact le_antisymm (hmin n' hn'.node hlt') (hmin' n hn.node hlt)
  · exact absurd hlt (not_lt.2 (hall' n hn.node))
  · exact absurd hlt' (not_lt.2 (hall n' hn'.node))
  · exact le_antisymm (hmin n' hn'.node) (hmin' n hn.node)

lemma Next.mono (hn : Next s b n) (hts : t ⊆ s) (hnt : n ∈ t) : Next t b n := by
  refine ⟨hnt, hn.ne, ?_⟩
  rcases hn.first with ⟨hlt, hmin⟩ | ⟨hall, hmin⟩
  · exact Or.inl ⟨hlt, fun m hm hbm => hmin m (hts hm) hbm⟩
  · exact Or.inr ⟨fun m hm => hall m (hts hm), fun m hm => hmin m (hts hm)⟩

lemma Owns.of_erased (hb : Owns s b h) (hn : Owns t n h) (hts : t ⊆ s) : Owns t n b := by
  refine ⟨hn.node, ?_⟩
  rcases hb.first with ⟨hhb, hbmin⟩ | ⟨hball, hbmin⟩
  · rcases hn.first with ⟨hhn, hnmin⟩ | ⟨hnall, hnmin⟩
    · exact Or.inl ⟨hbmin n (hts hn.node) hhn, fun m hm hbm => hnmin m hm (hhb.trans hbm)⟩
    · exact Or.inr ⟨fun m hm => (hnall m hm).trans_le hhb, hnmin⟩
  · rcases hn.first with ⟨hhn, -⟩ | ⟨-, hnmin⟩
    · exact absurd hhn (not_le.2 (hball n (hts hn.node)))
    · exact Or.inl ⟨hbmin n (hts hn.node), fun m hm _ => hnmin m hm⟩

lemma Owns.next_erased (hn : Owns t n b) (hst : ∀ m ∈ s, m = b ∨ m ∈ t) (hts : t ⊆ s) (hb : b ∉ t) : Next s b n := by
  have hne : n ≠ b := fun heq => hb (heq ▸ hn.node)
  refine ⟨hts hn.node, hne, ?_⟩
  rcases hn.first with ⟨hbn, hnmin⟩ | ⟨hnall, hnmin⟩
  · refine Or.inl ⟨lt_of_le_of_ne hbn (Ne.symm hne), fun m hm hbm => ?_⟩
    exact hnmin m ((hst m hm).resolve_left hbm.ne') hbm.le
  · refine Or.inr ⟨fun m hm => ?_, fun m hm => ?_⟩
    · rcases hst m hm with rfl | hm
      · exact le_rfl
      · exact (hnall m hm).le
    · rcases hst m hm with rfl | hm
      · exact (hnall n hn.node).le
      · exact hnmin m hm

lemma Owns.next (hn : Owns s n h) (hb : Owns (Insert.insert b s) b h) (hnb : n ≠ b) (hts : t ⊆ s) (hnt : n ∈ t)
    (hnext : Next (Insert.insert b t) b n') : n' = n := by
  have hsame : ∀ m ∈ s, b ≠ m → b < m ∨ m < b := fun m _ hne => lt_or_gt_of_ne hne
  have hmem : n' ∈ t := (Set.mem_insert_iff.1 hnext.node).resolve_left hnext.ne
  rcases hb.first with ⟨hhb, hbmin⟩ | ⟨hball, hbmin⟩
  · rcases hn.first with ⟨hhn, hnmin⟩ | ⟨hnall, hnmin⟩
    · -- the point is before `b`, and `b` before its node
      have hlt : b < n := lt_of_le_of_ne (hbmin n (Set.mem_insert_of_mem _ hn.node) hhn) (Ne.symm hnb)
      rcases hnext.first with ⟨hbn', hmin⟩ | ⟨hall, -⟩
      · exact le_antisymm (hmin n (Set.mem_insert_of_mem _ hnt) hlt) (hnmin n' (hts hmem) (hhb.trans hbn'.le))
      · exact absurd hlt (not_lt.2 (hall n (Set.mem_insert_of_mem _ hnt)))
    · rcases hnext.first with ⟨hbn', -⟩ | ⟨-, hmin⟩
      · exact absurd (hhb.trans hbn'.le) (not_le.2 (hnall n' (hts hmem)))
      · exact le_antisymm (hmin n (Set.mem_insert_of_mem _ hnt)) (hnmin n' (hts hmem))
  · rcases hn.first with ⟨hhn, -⟩ | ⟨-, hnmin⟩
    · exact absurd hhn (not_le.2 (hball n (Set.mem_insert_of_mem _ hn.node)))
    · have hlt : b < n := lt_of_le_of_ne (hbmin n (Set.mem_insert_of_mem _ hn.node)) (Ne.symm hnb)
      rcases hnext.first with ⟨-, hmin⟩ | ⟨hall, -⟩
      · exact le_antisymm (hmin n (Set.mem_insert_of_mem _ hnt) hlt) (hnmin n' (hts hmem))
      · exact absurd hlt (not_lt.2 (hall n (Set.mem_insert_of_mem _ hnt)))

lemma Owns.insert_iff (hn : Owns s n h) (hnb : n ≠ b) (hfirst : ¬ ∀ m ∈ s, b ≤ m ∧ m < h) :
    Owns (Insert.insert b s) b h ↔ h ≤ b ∧ (n < b → n < h) := by
  constructor
  · intro hb
    rcases hb.first with ⟨hhb, hbmin⟩ | ⟨hball, hbmin⟩
    · refine ⟨hhb, fun hlt => ?_⟩
      by_contra hle
      exact absurd (hbmin n (Set.mem_insert_of_mem _ hn.node) (not_lt.1 hle)) (not_le.2 hlt)
    · exact absurd (fun m hm => ⟨hbmin m (Set.mem_insert_of_mem _ hm), hball m (Set.mem_insert_of_mem _ hm)⟩) hfirst
  · rintro ⟨hhb, hafter⟩
    refine ⟨Set.mem_insert _ _, Or.inl ⟨hhb, ?_⟩⟩
    rintro m (rfl | hm) hhm
    · exact le_rfl
    · rcases hn.first with ⟨hhn, hnmin⟩ | ⟨hnall, -⟩
      · rcases lt_or_gt_of_ne hnb with hlt | hgt
        · exact absurd hhn (not_le.2 (hafter hlt))
        · exact hgt.le.trans (hnmin m hm hhm)
      · exact absurd hhm (not_le.2 (hnall m hm))

end Circle

namespace SortedMap

open Circle

variable {κ ν : Type} [LinearOrder κ] {m : SortedMap κ ν} {k : κ} {e : κ × ν}

lemma head_le {p : κ × ν → Bool} {es : List (κ × ν)} (h : m.entries.filter p = e :: es) {e' : κ × ν}
    (he' : e' ∈ m.entries) (hp : p e' = true) : e.1 ≤ e'.1 := by
  have hsorted := m.sorted.filter p
  have hmem : e' ∈ m.entries.filter p := List.mem_filter.2 ⟨he', hp⟩
  rw [h] at hsorted hmem
  rcases List.mem_cons.1 hmem with rfl | hmem
  · exact le_rfl
  · exact ((List.pairwise_cons.1 hsorted).1 _ hmem).le

lemma filter_head {p : κ × ν → Bool} {es : List (κ × ν)} (h : m.entries.filter p = e :: es) :
    e ∈ m.entries ∧ p e = true := List.mem_filter.1 (h ▸ List.mem_cons_self)

theorem atOrAfter_owns (h : m.atOrAfter k = some e) : Owns {n | n ∈ m.keys} e.1 k := by
  have hkeys : ∀ n ∈ m.keys, ∃ e' ∈ m.entries, e'.1 = n := fun n hn => List.mem_map.1 hn
  refine ⟨List.mem_map.2 ⟨e, atOrAfter_mem h, rfl⟩, ?_⟩
  rw [atOrAfter, circleFrom] at h
  cases hge : m.entries.filter (k ≤ ·.1) with
  | cons g gs =>
    rw [hge, List.cons_append, List.head?_cons, Option.some.injEq] at h
    subst h
    refine Or.inl ⟨by simpa using (filter_head hge).2, fun n hn hkn => ?_⟩
    obtain ⟨e', he', rfl⟩ := hkeys n hn
    exact head_le hge he' (by simpa using hkn)
  | nil =>
    have hlt : ∀ e' ∈ m.entries, e'.1 < k := fun e' he' => by
      simpa using List.filter_eq_nil_iff.1 hge e' he'
    rw [hge, List.nil_append, List.filter_eq_self.2 fun e' he' => by simpa using hlt e' he'] at h
    obtain ⟨es, hes⟩ := List.head?_eq_some_iff.1 h
    refine Or.inr ⟨fun n hn => ?_, fun n hn => ?_⟩
    · obtain ⟨e', he', rfl⟩ := hkeys n hn
      exact hlt e' he'
    · obtain ⟨e', he', rfl⟩ := hkeys n hn
      have hall : m.entries.filter (fun _ => true) = e :: es := by rw [List.filter_true, hes]
      exact head_le hall he' rfl

theorem circleFrom_atOrAfter (h : m.atOrAfter k = some e) : m.circleFrom e.1 = m.circleFrom k := by
  have hmem := atOrAfter_mem h
  rw [atOrAfter, circleFrom] at h
  cases hge : m.entries.filter (k ≤ ·.1) with
  | cons g gs =>
    rw [hge, List.cons_append, List.head?_cons, Option.some.injEq] at h
    subst h
    have hk : k ≤ g.1 := by simpa using (filter_head hge).2
    have hiff : ∀ e' ∈ m.entries, (g.1 ≤ e'.1 ↔ k ≤ e'.1) := fun e' he' =>
      ⟨hk.trans, fun hke => head_le hge he' (by simpa using hke)⟩
    rw [circleFrom, circleFrom]
    congr 1
    · exact List.filter_congr fun e' he' => by simp [hiff e' he']
    · exact List.filter_congr fun e' he' => by simp [← not_le, hiff e' he']
  | nil =>
    have hlt : ∀ e' ∈ m.entries, e'.1 < k := fun e' he' => by
      simpa using List.filter_eq_nil_iff.1 hge e' he'
    have hall : m.entries.filter (·.1 < k) = m.entries := List.filter_eq_self.2 fun e' he' => by simpa using hlt e' he'
    rw [hge, List.nil_append, hall] at h
    obtain ⟨es, hes⟩ := List.head?_eq_some_iff.1 h
    have hfirst : ∀ e' ∈ m.entries, e.1 ≤ e'.1 := fun e' he' =>
      head_le (p := fun _ => true) (by rw [List.filter_true, hes]) he' rfl
    have hbefore : m.entries.filter (·.1 < e.1) = [] :=
      List.filter_eq_nil_iff.2 fun e' he' => by simpa using hfirst e' he'
    rw [circleFrom, circleFrom, hge, hall, hbefore, List.filter_eq_self.2 fun e' he' => by simpa using hfirst e' he']
    rw [List.append_nil, List.nil_append]

theorem after_next (h : m.after k = some e) {k' : κ} (hk' : k' ∈ m.keys) (hne : k' ≠ k) :
    Next {n | n ∈ m.keys} k e.1 := by
  have hkeys : ∀ n ∈ m.keys, ∃ e' ∈ m.entries, e'.1 = n := fun n hn => List.mem_map.1 hn
  obtain ⟨v', hv'⟩ := mem_keys.1 hk'
  refine ⟨List.mem_map.2 ⟨e, after_mem h, rfl⟩, after_ne hv' hne h, ?_⟩
  rw [after, circleAfter] at h
  cases hgt : m.entries.filter (k < ·.1) with
  | cons g gs =>
    rw [hgt, List.cons_append, List.head?_cons, Option.some.injEq] at h
    subst h
    refine Or.inl ⟨by simpa using (filter_head hgt).2, fun n hn hkn => ?_⟩
    obtain ⟨e', he', rfl⟩ := hkeys n hn
    exact head_le hgt he' (by simpa using hkn)
  | nil =>
    have hle : ∀ e' ∈ m.entries, e'.1 ≤ k := fun e' he' => by
      simpa using List.filter_eq_nil_iff.1 hgt e' he'
    rw [hgt, List.nil_append, List.filter_eq_self.2 fun e' he' => by simpa using hle e' he'] at h
    obtain ⟨es, hes⟩ := List.head?_eq_some_iff.1 h
    refine Or.inr ⟨fun n hn => ?_, fun n hn => ?_⟩
    · obtain ⟨e', he', rfl⟩ := hkeys n hn
      exact hle e' he'
    · obtain ⟨e', he', rfl⟩ := hkeys n hn
      have hall : m.entries.filter (fun _ => true) = e :: es := by rw [List.filter_true, hes]
      exact head_le hall he' rfl

end SortedMap
