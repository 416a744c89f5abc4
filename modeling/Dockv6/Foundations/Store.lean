import Mathlib

/-!
# Stores and transactions

A store is a function from places to contents; a transaction is a list of writes, made in order;
a history is a list of transactions. `Store.run d ts` is the store after the history `ts`.
-/

namespace Dockv6.Store

variable {ι β : Type*} [DecidableEq ι]

/-- The store after the writes of one transaction. -/
def write (d : ι → β) : List (ι × β) → ι → β
  | [] => d
  | w :: t => write (Function.update d w.1 w.2) t

/-- The store after a history. -/
def run (d : ι → β) : List (List (ι × β)) → ι → β
  | [] => d
  | t :: ts => run (write d t) ts

theorem write_append (d : ι → β) (t u : List (ι × β)) :
    write d (t ++ u) = write (write d t) u := by
  induction t generalizing d with
  | nil => rfl
  | cons w t ih => exact ih _

theorem write_concat (d : ι → β) (t : List (ι × β)) (i : ι) (v : β) :
    write d (t ++ [(i, v)]) = Function.update (write d t) i v := by
  rw [write_append, write, write]

theorem run_append (d : ι → β) (ts us : List (List (ι × β))) :
    run d (ts ++ us) = run (run d ts) us := by
  induction ts generalizing d with
  | nil => rfl
  | cons t ts ih => exact ih _

theorem run_concat (d : ι → β) (ts : List (List (ι × β))) (t : List (ι × β)) :
    run d (ts ++ [t]) = write (run d ts) t := by
  rw [run_append, run, run]

end Dockv6.Store
