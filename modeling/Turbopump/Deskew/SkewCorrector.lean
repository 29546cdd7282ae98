import Turbopump.Callbacks.ComputedOptions

/-! Dropping a key that this node need not keep. -/

namespace Turbopump

namespace SkewCorrector

variable {θ : Type} (T : TurboLib)

/-- `dropKey`: the key must have a file under the version that its versions merge to. -/
def dropKey (s : StoreState (Callbacks θ)) (name : Bytes) : Bool × StoreState (Callbacks θ) :=
  match FileStore.read T s.fs name [] false with
  | .accepted reader =>
    let (removed, fs) := FileStore.remove s.fs name
    if removed then
      (true, { s with
        fs := fs
        callbacks := { s.callbacks with calls := s.callbacks.calls ++ [digestDelFunct name reader.md.totalCopies] } })
    else (false, { s with fs := fs })
  | _ => (false, s)

end SkewCorrector

end Turbopump
