import Mathlib

/-! A register that keeps the value of the highest rank among those that it is offered. Of two values of one rank it
keeps the earlier one, and the later one at the ranks that yield. -/

namespace Register

variable {α ρ : Type} [LinearOrder ρ] (rank : α → ρ) (yields : ρ → Bool)

def Takes (a b : α) : Prop := rank a < rank b ∨ rank a = rank b ∧ yields (rank b)

instance (a b : α) : Decidable (Takes rank yields a b) := inferInstanceAs (Decidable (_ ∨ _))

def offer (a b : α) : α := if Takes rank yields a b then b else a

/-- `b` is of the highest rank among the values, and a register with `a` takes it. -/
structure Leads (a : α) (bs : List α) (b : α) : Prop where
  mem : b ∈ bs
  takes : Takes rank yields a b
  highest : ∀ c ∈ bs, rank c ≤ rank b

variable {rank yields} {a b c : α} {bs cs : List α}

lemma rank_le_of_not_takes (h : ¬ Takes rank yields a b) : rank b ≤ rank a := not_lt.1 fun hlt => h (Or.inl hlt)

lemma Takes.rank_le (h : Takes rank yields a b) : rank a ≤ rank b := by
  rcases h with hlt | ⟨heq, -⟩
  · exact hlt.le
  · exact heq.le

lemma Takes.trans (h : Takes rank yields a b) (h' : Takes rank yields b c) : Takes rank yields a c := by
  rcases h with hlt | ⟨heq, -⟩
  · exact Or.inl (hlt.trans_le h'.rank_le)
  · rwa [Takes, heq]

lemma Leads.perm (h : Leads rank yields a bs b) (hperm : cs.Perm bs) : Leads rank yields a cs b :=
  ⟨hperm.mem_iff.2 h.mem, h.takes, fun c hc => h.highest c (hperm.mem_iff.1 hc)⟩

lemma foldl_cases (a : α) (bs : List α) : Leads rank yields a bs (bs.foldl (offer rank yields) a) ∨
    bs.foldl (offer rank yields) a = a ∧ ∀ b ∈ bs, ¬ Takes rank yields a b := by
  induction bs using List.reverseRecOn with
  | nil => exact Or.inr ⟨rfl, by simp⟩
  | append_singleton bs b ih =>
    rw [List.foldl_append, List.foldl_cons, List.foldl_nil]
    generalize bs.foldl (offer rank yields) a = r at ih
    by_cases htakes : Takes rank yields r b
    · left
      rw [offer, if_pos htakes]
      rcases ih with hleads | ⟨rfl, hnone⟩
      · refine ⟨by simp, hleads.takes.trans htakes, fun c hc => ?_⟩
        rcases List.mem_append.1 hc with hc | hc
        · exact (hleads.highest c hc).trans htakes.rank_le
        · rw [List.mem_singleton.1 hc]
      · refine ⟨by simp, htakes, fun c hc => ?_⟩
        rcases List.mem_append.1 hc with hc | hc
        · exact (rank_le_of_not_takes (hnone c hc)).trans htakes.rank_le
        · rw [List.mem_singleton.1 hc]
    · rw [offer, if_neg htakes]
      rcases ih with hleads | ⟨rfl, hnone⟩
      · left
        refine ⟨List.mem_append_left _ hleads.mem, hleads.takes, fun c hc => ?_⟩
        rcases List.mem_append.1 hc with hc | hc
        · exact hleads.highest c hc
        · rw [List.mem_singleton.1 hc]
          exact rank_le_of_not_takes htakes
      · right
        refine ⟨rfl, fun c hc => ?_⟩
        rcases List.mem_append.1 hc with hc | hc
        · exact hnone c hc
        · rwa [List.mem_singleton.1 hc]

lemma foldl_of_highest (hyields : yields (rank b) = false) (hhighest : ∀ c ∈ bs, rank c ≤ rank b) :
    bs.foldl (offer rank yields) b = b := by
  rcases @foldl_cases _ _ _ rank yields b bs with hleads | ⟨hsame, -⟩
  · rcases hleads.takes with hlt | ⟨heq, htrue⟩
    · exact absurd (hhighest _ hleads.mem) (not_le.2 hlt)
    · rw [← heq, hyields] at htrue
      exact absurd htrue Bool.false_ne_true
  · exact hsame

lemma Leads.exists_perm (h : Leads rank yields a bs b) :
    ∃ cs : List α, cs.Perm bs ∧ cs.foldl (offer rank yields) a = b := by
  obtain ⟨before, after, rfl⟩ := List.append_of_mem h.mem
  have hrest : ∀ c ∈ before ++ after, rank c ≤ rank b := fun c hc => h.highest c (by
    rcases List.mem_append.1 hc with hc | hc <;> simp [hc])
  cases hyields : yields (rank b) with
  | false =>
    refine ⟨b :: (before ++ after), List.perm_middle.symm, ?_⟩
    rw [List.foldl_cons, offer, if_pos h.takes]
    exact foldl_of_highest hyields hrest
  | true =>
    refine ⟨before ++ after ++ [b], (List.perm_append_singleton _ _).trans List.perm_middle.symm, ?_⟩
    rw [List.foldl_append, List.foldl_cons, List.foldl_nil, offer, if_pos]
    rcases @foldl_cases _ _ _ rank yields a (before ++ after) with hleads | ⟨hsame, -⟩
    · exact (hrest _ hleads.mem).lt_or_eq.imp_right fun heq => ⟨heq, hyields⟩
    · rw [hsame]
      exact h.takes

theorem foldl_perm_iff : (∀ cs : List α, cs.Perm bs → cs.foldl (offer rank yields) a = bs.foldl (offer rank yields) a) ↔
    ∀ b c, Leads rank yields a bs b → Leads rank yields a bs c → b = c := by
  constructor
  · intro hsame b c hb hc
    obtain ⟨bs', hperm, rfl⟩ := hb.exists_perm
    obtain ⟨cs', hperm', rfl⟩ := hc.exists_perm
    rw [hsame bs' hperm, hsame cs' hperm']
  · intro hone cs hperm
    rcases @foldl_cases _ _ _ rank yields a bs with hb | ⟨hb, hnone⟩
    · rcases @foldl_cases _ _ _ rank yields a cs with hc | ⟨-, hnone⟩
      · exact hone _ _ (hc.perm hperm.symm) hb
      · exact absurd hb.takes (hnone _ (hperm.mem_iff.2 hb.mem))
    · rcases @foldl_cases _ _ _ rank yields a cs with hc | ⟨hc, -⟩
      · exact absurd hc.takes (hnone _ (hperm.mem_iff.1 hc.mem))
      · rw [hc, hb]

end Register
