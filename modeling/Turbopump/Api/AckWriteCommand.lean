import Turbopump.Deskew.SkewCorrector

/-! The acknowledgement of a write: a node that need not keep the key drops it. -/

namespace Turbopump

structure AckWrite where
  name : Bytes
  version : Bytes
  size : ℕ

namespace AckWriteCommand

variable {θ : Type} (T : TurboLib)

def run (keyIsMine : Bytes → ℕ → Bool) (params : AckWrite) (s : StoreState (Callbacks θ)) :
    Outcome × StoreState (Callbacks θ) :=
  match FileStore.read T s.fs params.name params.version false with
  | .threw => (.threw, s)
  | .refused => (.returned false, s)
  | .accepted reader =>
    -- nothing is done until the whole file is acknowledged
    if (s.fs.file reader.inode).content.length ≠ params.size then (.returned false, s)
    else if keyIsMine params.name reader.md.totalCopies then (.returned true, s)
    else (.returned true, (SkewCorrector.dropKey T s params.name).2)

variable {T}

lemma run_cases (keyIsMine : Bytes → ℕ → Bool) (params : AckWrite) (s : StoreState (Callbacks θ)) :
    (run T keyIsMine params s).2.fs = s.fs ∨
      (run T keyIsMine params s).2.fs = s.fs.removeAll (FileStore.dirpath params.name) := by
  have hdrop : (SkewCorrector.dropKey T s params.name).2.fs = s.fs ∨
      (SkewCorrector.dropKey T s params.name).2.fs = s.fs.removeAll (FileStore.dirpath params.name) := by
    rw [SkewCorrector.dropKey]
    cases FileStore.read T s.fs params.name [] false with
    | threw => exact .inl rfl
    | refused => exact .inl rfl
    | accepted reader =>
      have hfs : (FileStore.remove s.fs params.name).2 = s.fs.removeAll (FileStore.dirpath params.name) := rfl
      refine .inr (Eq.trans ?_ hfs)
      cases FileStore.remove s.fs params.name with
      | mk removed fs => cases removed <;> rfl
  rw [run]
  cases FileStore.read T s.fs params.name params.version false with
  | threw => exact .inl rfl
  | refused => exact .inl rfl
  | accepted reader =>
    dsimp only
    split
    · exact .inl rfl
    · split
      · exact .inl rfl
      · exact hdrop

lemma run_mine {keyIsMine : Bytes → ℕ → Bool} (params : AckWrite) (h : ∀ copies, keyIsMine params.name copies)
    (s : StoreState (Callbacks θ)) : (run T keyIsMine params s).2 = s := by
  rw [run]
  cases FileStore.read T s.fs params.name params.version false with
  | threw => rfl
  | refused => rfl
  | accepted reader =>
    dsimp only
    rw [if_pos (h reader.md.totalCopies)]
    split <;> rfl

end AckWriteCommand

end Turbopump
