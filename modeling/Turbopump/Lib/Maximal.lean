import Mathlib

/-! Keeping the maximal elements of a set whose elements arrive one by one. -/

namespace Maximal

variable {α : Type} (lt : α → α → Prop)

structure StrictOn (W : Set α) : Prop where
  irrefl : ∀ a ∈ W, ¬ lt a a
  trans : ∀ a ∈ W, ∀ b ∈ W, ∀ c ∈ W, lt a b → lt b c → lt a c

def maximals (W : Set α) : Set α := {a | a ∈ W ∧ ∀ b ∈ W, ¬ lt a b}

/-- `a` arrives at `S`: what is below `a` goes, and `a` itself if something in `S` is above it. -/
def absorb (S : Set α) (a : α) : Set α :=
  {b | (b = a ∨ b ∈ S) ∧ ¬ lt b a ∧ ¬ (b = a ∧ ∃ c ∈ S, lt a c)}

def Covered (S : Set α) (d : α) : Prop := ∃ s ∈ S, d = s ∨ lt d s

variable {lt} {W S : Set α} {a : α}

lemma absorb_subset (hS : S ⊆ W) (ha : a ∈ W) : absorb lt S a ⊆ W := by
  rintro b ⟨rfl | hb, -⟩
  · exact ha
  · exact hS hb

lemma absorb_antichain (hS : IsAntichain lt S) : IsAntichain lt (absorb lt S a) := by
  rintro b ⟨hb, hba, hself⟩ c ⟨hc, -, -⟩ hne hlt
  rcases hc with rfl | hc
  · exact hba hlt
  · rcases hb with rfl | hb
    · exact hself ⟨rfl, c, hc, hlt⟩
    · exact hS hb hc hne hlt

lemma absorb_covers (h : StrictOn lt W) (hSW : S ⊆ W) (ha : a ∈ W) (hS : IsAntichain lt S) {b : α}
    (hb : b = a ∨ b ∈ S) : Covered lt (absorb lt S a) b := by
  by_cases habove : ∃ c ∈ S, lt a c
  · -- the newcomer goes, and what is above it stays
    obtain ⟨c, hc, hac⟩ := habove
    have hca : ¬ lt c a := fun hca => h.irrefl a ha (h.trans a ha c (hSW hc) a ha hac hca)
    have hkeep : c ∈ absorb lt S a :=
      ⟨Or.inr hc, hca, fun ⟨heq, _⟩ => h.irrefl a ha (heq ▸ hac)⟩
    rcases hb with rfl | hb
    · exact ⟨c, hkeep, Or.inr hac⟩
    · have hne : ¬ lt b a := fun hba => by
        have hbc := h.trans b (hSW hb) a ha c (hSW hc) hba hac
        exact hS hb hc (fun heq => h.irrefl b (hSW hb) (heq ▸ hbc)) hbc
      by_cases heq : b = a
      · exact ⟨c, hkeep, Or.inr (heq ▸ hac)⟩
      · exact ⟨b, ⟨Or.inr hb, hne, fun hx => heq hx.1⟩, Or.inl rfl⟩
  · have hkeep : a ∈ absorb lt S a := ⟨Or.inl rfl, h.irrefl a ha, fun hx => habove hx.2⟩
    rcases hb with rfl | hb
    · exact ⟨b, hkeep, Or.inl rfl⟩
    · by_cases hba : lt b a
      · exact ⟨a, hkeep, Or.inr hba⟩
      · exact ⟨b, ⟨Or.inr hb, hba, fun hx => habove hx.2⟩, Or.inl rfl⟩

lemma Covered.absorb (h : StrictOn lt W) (hSW : S ⊆ W) (ha : a ∈ W) (hS : IsAntichain lt S) {d : α} (hd : d ∈ W)
    (hcov : Covered lt S d) : Covered lt (absorb lt S a) d := by
  obtain ⟨s, hs, hds⟩ := hcov
  obtain ⟨t, ht, hst⟩ := absorb_covers h hSW ha hS (Or.inr hs)
  refine ⟨t, ht, ?_⟩
  rcases hds with rfl | hds <;> rcases hst with rfl | hst
  · exact Or.inl rfl
  · exact Or.inr hst
  · exact Or.inr hds
  · exact Or.inr (h.trans d hd s (hSW hs) t (absorb_subset hSW ha ht) hds hst)

lemma Covered.trans (h : StrictOn lt W) {R : Set α} (hRW : R ⊆ W) (hSW : S ⊆ W) {d : α} (hd : d ∈ W)
    (hcov : Covered lt S d) (hSR : ∀ s ∈ S, Covered lt R s) : Covered lt R d := by
  obtain ⟨s, hs, hds⟩ := hcov
  obtain ⟨r, hr, hsr⟩ := hSR s hs
  refine ⟨r, hr, ?_⟩
  rcases hds with rfl | hds
  · exact hsr
  · rcases hsr with rfl | hsr
    · exact Or.inr hds
    · exact Or.inr (h.trans d hd s (hSW hs) r (hRW hr) hds hsr)

lemma subset_of_covers (h : StrictOn lt W) {R : Set α} (hRW : R ⊆ W) (hSW : S ⊆ W) (hS : IsAntichain lt S)
    (hSR : ∀ s ∈ S, Covered lt R s) (hRS : ∀ r ∈ R, Covered lt S r) : S ⊆ R := by
  intro s hs
  obtain ⟨r, hr, rfl | hsr⟩ := hSR s hs
  · exact hr
  · obtain ⟨s', hs', hrs⟩ := hRS r hr
    have hlt : lt s s' := by
      rcases hrs with rfl | hrs
      · exact hsr
      · exact h.trans s (hSW hs) r (hRW hr) s' (hSW hs') hsr hrs
    exact absurd hlt (hS hs hs' fun heq => h.irrefl s (hSW hs) (heq ▸ hlt))

theorem covered_of_path {ι : Type} (h : StrictOn lt W) {F : ι → Set α} (hFW : ∀ p, F p ⊆ W) {R : ι → ι → Prop}
    (hR : ∀ p q, R p q → ∀ v ∈ F p, Covered lt (F q) v) {p q : ι} (hpath : Relation.ReflTransGen R p q) :
    ∀ v ∈ F p, Covered lt (F q) v := by
  induction hpath with
  | refl => exact fun v hv => ⟨v, hv, Or.inl rfl⟩
  | @tail r q _ hedge ih =>
    intro v hv
    exact (ih v hv).trans h (hFW q) (hFW r) (hFW p hv) (hR r q hedge)

theorem eq_maximals (hSW : S ⊆ W) (hS : IsAntichain lt S) (h : StrictOn lt W) (hcov : ∀ d ∈ W, Covered lt S d) :
    S = maximals lt W := by
  ext s
  constructor
  · intro hs
    refine ⟨hSW hs, fun b hb hsb => ?_⟩
    obtain ⟨t, ht, rfl | hbt⟩ := hcov b hb
    · exact hS hs ht (fun heq => h.irrefl s (hSW hs) (heq ▸ hsb)) hsb
    · have hst := h.trans s (hSW hs) b hb t (hSW ht) hsb hbt
      exact hS hs ht (fun heq => h.irrefl s (hSW hs) (heq ▸ hst)) hst
  · rintro ⟨hs, hmax⟩
    obtain ⟨t, ht, rfl | hst⟩ := hcov s hs
    · exact ht
    · exact absurd hst (hmax t (hSW ht))

end Maximal
