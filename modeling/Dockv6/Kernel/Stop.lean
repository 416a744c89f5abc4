import Dockv6.Foundations.Except

/-!
# Kernel code that may not return

A kernel function returns, or it stops the machine with `panic`, or it uses a pointer or an index
for which the C program has no meaning.
-/

namespace Dockv6

/-- Why a kernel function does not return. -/
inductive Stop
  | panic (msg : String)
  | undefined
  deriving DecidableEq, Repr

/-- The outcome of a kernel function. -/
abbrev Res (α : Type) := Except Stop α

end Dockv6
