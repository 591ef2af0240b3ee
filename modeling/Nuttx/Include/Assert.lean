import Nuttx.Library.Runs

/-!
# Assertions

`DEBUGASSERT` of `include/assert.h`. With `CONFIG_DEBUG_ASSERTIONS` a condition that does not hold
stops the system; without it the condition is not looked at.
-/

namespace Nuttx

def debugAssert {ε : Type} (debug : Bool) (site : ε) (holds : Bool) : Except ε Unit :=
  if debug && !holds then .error site else .ok ()

theorem debugAssert_ok {ε : Type} {debug : Bool} {site : ε} {holds : Bool}
    (h : debug = true → holds = true) : debugAssert debug site holds = .ok () := by
  rw [debugAssert, if_neg]
  cases debug with
  | false => simp
  | true => simp [h rfl]

end Nuttx
