/-
**Why a conversion fails.**

Reordering an expression fails in two ways only, and both are about parentheses that do not pair
up.  `Polish.Mismatch` names the two causes and `Polish.Mismatch.message` is their wording.
-/

set_option relaxedAutoImplicit false
set_option autoImplicit false

namespace Polish

/-- Which side of a pair of parentheses is missing. -/
inductive Mismatch where
  /-- A right parenthesis came with no left parenthesis open. -/
  | unopened
  /-- A left parenthesis was still open at the end of the input. -/
  | unclosed
deriving DecidableEq, Repr

namespace Mismatch

/-- What is wrong, without the context. -/
def detail : Mismatch → String
  | .unopened => "missing matching left parenthesis"
  | .unclosed => "leftover parenthesis in operator stack"

/-- The report of a mismatch. -/
def message (m : Mismatch) : String := "mismatched parentheses: " ++ m.detail

instance : ToString Mismatch := ⟨message⟩

end Mismatch

end Polish
