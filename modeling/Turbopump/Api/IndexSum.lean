import Turbopump.Api.Accounting
import Turbopump.Common.ReferenceClocks

/-! What a history of writes reports to the index for a key adds up to the digests of its finished versions. -/

namespace Turbopump

open FileStore
open VectorClock (IsVersion)

namespace Node

variable {θ : Type} {T : TurboLib} {hasher : Bytes → Bytes} {later : LaterCallbacks θ} {keys : Set Bytes}

def Writable (T : TurboLib) (keys : Set Bytes) (s : Node θ) : Action → Prop
  | .request w => w.name ∈ keys ∧ (w.version = [] ∨ IsVersion T w.version)
  | .packet i host _ => ∀ c, s.commands[i]? = some c → c.started = false → c.instructions.version = [] →
    NewVersion T host s.store.fs c.instructions.name
  | .drop _ => False

lemma updates_eq_values (n : Bytes) (calls : List IndexCall)
    (hcalls : ∀ name mirrors, IndexCall.remove name mirrors ∉ calls) :
    (updates n calls).map Prod.fst = values n calls := by
  induction calls using List.reverseRecOn with
  | nil => rfl
  | append_singleton calls call ih =>
    have hcalls' : ∀ name mirrors, IndexCall.remove name mirrors ∉ calls := fun name mirrors hmem =>
      hcalls name mirrors (List.mem_append_left _ hmem)
    cases call with
    | update name value mirrors =>
      rw [updates_update, List.map_append, ih hcalls']
      by_cases hn : name = n <;> simp [values, hn]
    | remove name mirrors => exact absurd (by simp) (hcalls name mirrors)

theorem accounted_run (hT : T.Base64) (hk : KeySpace keys) (actions : List Action) {s : Node θ}
    (h : Accounted T hasher keys (fun _ _ => True) s)
    (hcalls : ∀ name mirrors, IndexCall.remove name mirrors ∉ s.store.callbacks.calls)
    (hrun : Along T hasher later (Writable T keys) s actions) :
    Accounted T hasher keys (fun _ _ => True) (s.run T hasher later actions) ∧
    ∀ name mirrors, IndexCall.remove name mirrors ∉ (s.run T hasher later actions).store.callbacks.calls := by
  induction actions generalizing s with
  | nil => exact ⟨h, hcalls⟩
  | cons a actions ih =>
    obtain ⟨ha, hrest⟩ := hrun
    refine ih ?_ ?_ hrest
    · cases a with
      | request w => exact h.request ha.1 ha.2
      | packet i host buff => exact h.packet hT hk ⟨ha, fun _ _ _ _ _ _ _ => trivial⟩ buff
      | drop name => exact ha.elim
    · cases a with
      | request w => exact hcalls
      | packet i host buff =>
        simp only [step, packet]
        cases hc : s.commands[i]? with
        | none => exact hcalls
        | some c =>
          obtain ⟨vs, hvs⟩ := (@continues_run θ T hasher later { s.store with host := host } c buff).calls
          intro name mirrors hmem
          simp only [hvs, List.mem_append, List.mem_map] at hmem
          refine hmem.elim (hcalls name mirrors) ?_
          rintro ⟨value, -, hvalue⟩
          cases hvalue
      | drop name => exact ha.elim

section Example

def twoSessions : List Action :=
  [.request { name := [107] }, .request { name := [107] }, .packet 0 ⟨[97], 1⟩ [], .packet 1 ⟨[97], 1⟩ [1],
    .packet 0 ⟨[97], 2⟩ [2, 3], .packet 0 ⟨[97], 2⟩ [], .packet 1 ⟨[97], 3⟩ []]

def noLater : LaterCallbacks Unit := fun params _ _ => (⟨params.mirror, params.source, params.outstream⟩, ())

def emptyNode : Node Unit := ⟨⟨.empty, ⟨[97], 0⟩, ⟨[], ()⟩⟩, []⟩

lemma writable_started {s : Node θ} {i : ℕ} (h : s.commands[i]?.all (·.started) = true) (host : Host)
    (buff : Bytes) : Writable T keys s (.packet i host buff) := by
  intro c hc hstarted
  simp [hc, hstarted] at h

lemma writable_fresh {s : Node θ} {i : ℕ} {host : Host} {n : Bytes}
    (h : s.commands[i]?.all (fun c => c.instructions.name = n) = true) (hhost : NewVersion T host s.store.fs n)
    (buff : Bytes) : Writable T keys s (.packet i host buff) := by
  intro c hc _ _
  have hname : c.instructions.name = n := by simpa [hc] using h
  exact hname ▸ hhost

def twoClocks : Bytes := VectorClock.toString .wrapping [⟨[97], 9, 0⟩, ⟨[98], 5, 0⟩]

def usedUp : Bytes := VectorClock.toString .wrapping [⟨[97], 9, 2 ^ 64 - 1⟩]

def wrapped : List Action :=
  [.request { name := [107], version := twoClocks }, .request { name := [107], version := usedUp },
    .request { name := [107] }, .packet 0 ⟨[97], 9⟩ [1], .packet 0 ⟨[97], 9⟩ [], .packet 1 ⟨[97], 9⟩ [2],
    .packet 1 ⟨[97], 9⟩ [], .packet 2 ⟨[97], 9⟩ [3, 4], .packet 2 ⟨[97], 9⟩ []]

end Example

end Node

end Turbopump
