import Dockv6.Foundations.Circular
import Dockv6.Foundations.Run
import Dockv6.Kernel.Sys

/-!
# The user-level allocator

`malloc` and `free` of `umalloc.c`: the free blocks form a circular list in the order of their
addresses, with the static header `base` as its lowest node. Sizes count units of 8 bytes; sums and
products are those of 32-bit words, so the number of units may wrap, and from `2 ^ 28` units on the
argument of `sbrk` is not positive.
-/

namespace Dockv6.Malloc

open Function

/-- The headers by their addresses, and the two static variables. A null pointer is 0. -/
structure Heap where
  base : ℕ
  freep : ℕ
  ptr : ℕ → ℕ
  size : ℕ → ℕ
  /-- The memory that `sbrk` has returned is below. -/
  top : ℕ
  /-- What `sbrk` has returned: the first byte and the number of bytes. -/
  regions : List (ℕ × ℕ)
  /-- The pointers that were returned and not freed, with the requests. -/
  live : List (ℕ × ℕ)

/-- `p + n` for a pointer to a header. -/
def add (p n : ℕ) : ℕ := (p + 8 * n) % 2 ^ 32

/-- `(Header *)ap - 1` -/
def header (ap : ℕ) : ℕ := (ap + (2 ^ 32 - 8)) % 2 ^ 32

namespace Heap

/-- Does the block `bp` belong behind `p`? -/
def place (s : Heap) (bp p : ℕ) : Bool :=
  decide (p < bp ∧ bp < s.ptr p) || decide (s.ptr p ≤ p ∧ (p < bp ∨ bp < s.ptr p))

/-- Join the block `bp` with the one behind `p`, or link to it. -/
def joinUpper (s : Heap) (bp p : ℕ) : Heap :=
  if add bp (s.size bp) = s.ptr p then
    { s with
      size := update s.size bp ((s.size bp + s.size (s.ptr p)) % 2 ^ 32)
      ptr := update s.ptr bp (s.ptr (s.ptr p)) }
  else { s with ptr := update s.ptr bp (s.ptr p) }

/-- Join `p` with the block `bp`, or link to it. -/
def joinLower (s : Heap) (bp p : ℕ) : Heap :=
  if add p (s.size p) = bp then
    { s with
      size := update s.size p ((s.size p + s.size bp) % 2 ^ 32)
      ptr := update s.ptr p (s.ptr bp) }
  else { s with ptr := update s.ptr p bp }

/-- What `free` does behind its loop. -/
def release (s : Heap) (bp p : ℕ) : Heap := { (s.joinUpper bp p).joinLower bp p with freep := p }

/-- May `sbrk(k)` return this? For a positive `k` it is -1 or the start of `k` fresh bytes above all
that was returned before, and there is an address behind them. -/
def mayReturn (s : Heap) (k : Int) : Option ℕ → Prop
  | none => True
  | some a => 0 < k → s.top ≤ a ∧ a + k < 2 ^ 32

instance (s : Heap) (k : Int) : (r : Option ℕ) → Decidable (s.mayReturn k r)
  | none => .isTrue trivial
  | some _ => inferInstanceAs (Decidable (_ → _))

/-- `sbrk(k)` has returned `a`. -/
def grow (s : Heap) (k : Int) (a : ℕ) : Heap :=
  if 0 < k then { s with regions := (a, k.toNat) :: s.regions, top := a + k.toNat } else s

end Heap

/-- `free`, with a bound on the steps of its loop. -/
def free (fuel : ℕ) (s : Heap) (ap : ℕ) : Option Heap :=
  let bp := header ap
  match seek s.ptr (s.place bp) fuel s.freep with
  | none => none
  | some p => some (s.release bp p)

/-- The units that `morecore` asks for. -/
def coreUnits (nu : ℕ) : ℕ := if nu < 4096 then 4096 else nu

/-- The argument of `sbrk`. -/
def coreBytes (nu : ℕ) : Int := toint (coreUnits nu * 8 % 2 ^ 32)

/-- `morecore`, when `sbrk` returns `r`. -/
def morecore (fuel : ℕ) (s : Heap) (nu : ℕ) (r : Option ℕ) : Option (ℕ × Heap) :=
  if s.mayReturn (coreBytes nu) r then
    match r with
    | none => some (0, s)
    | some a =>
      let s := s.grow (coreBytes nu) a
      match free fuel { s with size := update s.size a (coreUnits nu) } (add a 1) with
      | none => none
      | some s => some (s.freep, s)
  else none

/-- The block `p` behind `prevp` is large enough: take `nunits` units from it. -/
def Heap.take (s : Heap) (nunits prevp p : ℕ) : ℕ × Heap :=
  if s.size p = nunits then
    (add p 1, { s with ptr := update s.ptr prevp (s.ptr p), freep := prevp })
  else
    let rest := s.size p - nunits
    let q := add p rest
    (add q 1, { s with
      size := update (update s.size p rest) q nunits
      freep := prevp })

/-- The loop of `malloc`; the list holds what the calls of `sbrk` return. -/
def search (fuel nunits : ℕ) : ℕ → Heap → ℕ → ℕ → List (Option ℕ) → Option (ℕ × Heap)
  | 0, _, _, _, _ => none
  | n + 1, s, prevp, p, answers =>
    if nunits ≤ s.size p then some (s.take nunits prevp p)
    else if p = s.freep then
      match answers with
      | [] => none
      | r :: answers =>
        match morecore fuel s nunits r with
        | none => none
        | some (q, s) => if q = 0 then some (0, s) else search fuel nunits n s q (s.ptr q) answers
    else search fuel nunits n s p (s.ptr p) answers

/-- The units of a request: room for the bytes, and a header. -/
def units (nbytes : ℕ) : ℕ := (nbytes + 8 - 1) % 2 ^ 32 / 8 + 1

/-- The list before the first request is the header `base` alone. -/
def Heap.init (s : Heap) : Heap :=
  if s.freep = 0 then
    { s with
      ptr := update s.ptr s.base s.base
      freep := s.base
      size := update s.size s.base 0 }
  else s

/-- `malloc`, with a bound on the steps of the loops. -/
def malloc (fuel : ℕ) (s : Heap) (nbytes : ℕ) (answers : List (Option ℕ)) : Option (ℕ × Heap) :=
  search fuel (units nbytes) fuel s.init s.init.freep (s.init.ptr s.init.freep) answers

/-- A call, with what `sbrk` answers. -/
inductive Act
  | malloc (fuel nbytes : ℕ) (answers : List (Option ℕ))
  | free (fuel ap : ℕ)

/-- A call that returns within the bound. Only pointers that are live are freed. -/
def step (s : Heap) : Act → Option Heap
  | .malloc fuel nbytes answers =>
    if nbytes < 2 ^ 32 then
      match malloc fuel s nbytes answers with
      | none => none
      | some (r, s) => some (if r = 0 then s else { s with live := (r, nbytes) :: s.live })
    else none
  | .free fuel ap =>
    if ap ∈ s.live.map Prod.fst then
      (free fuel s ap).map fun t => { t with live := s.live.eraseP fun x => x.1 = ap }
    else none

/-- The program is loaded: `freep` is null, and memory begins above `base`. -/
def machine : Machine Heap Act where
  init s := 0 < s.base ∧ s.base + 8 ≤ s.top ∧ s.top < 2 ^ 32 ∧ s.freep = 0 ∧
    s.regions = [] ∧ s.live = []
  step := step

/-! ## What is claimed of the heap -/

namespace Heap

/-- The byte was returned by `sbrk`. -/
def obtained (s : Heap) (x : ℕ) : Prop := ∃ r ∈ s.regions, r.1 ≤ x ∧ x < r.1 + r.2

instance (s : Heap) (x : ℕ) : Decidable (s.obtained x) :=
  inferInstanceAs (Decidable (∃ r ∈ s.regions, _))

/-- The byte is in the block at `a`. -/
def inBlock (s : Heap) (x a : ℕ) : Prop := a ≤ x ∧ x < a + 8 * s.size a

instance (s : Heap) (x a : ℕ) : Decidable (s.inBlock x a) := inferInstanceAs (Decidable (_ ∧ _))

/-- The blocks of the live pointers. -/
def used (s : Heap) : List ℕ := s.live.map fun x => x.1 - 8

/-- The list is circular: `base` and the blocks `F` in the order of their addresses, and `freep` is
on it. Before the first call of `malloc` there is none. -/
def Circular (s : Heap) (F : List ℕ) : Prop :=
  (s.freep = 0 ∧ F = []) ∨
    (Path s.ptr s.base (s.base :: F) s.base ∧ s.freep ∈ s.base ::
    F ∧ (s.base :: F).Pairwise (· < ·))

end Heap

/-- The heap is in order, with the free blocks `F`. -/
structure UserHeap (s : Heap) (F : List ℕ) : Prop where
  circular : s.Circular F
  /-- Every byte that was obtained is in exactly one block, and no other byte is in a block. -/
  tiles : ∀ x, ((F ++ s.used).filter fun a => s.inBlock x a).length = if s.obtained x then 1 else 0
  /-- A byte of a live request was obtained, and it is in no other live block, in no header and in
  no free block. -/
  room : ∀ ap n, (ap, n) ∈ s.live → ∀ y < n, s.obtained (ap + y) ∧
    (∀ a ∈ s.used, a ≠ ap - 8 → ¬ s.inBlock (ap + y) a) ∧
    (∀ a ∈ s.base :: F ++ s.used, ¬ (a ≤ ap + y ∧ ap + y < a + 8)) ∧
    ∀ a ∈ F, ¬ s.inBlock (ap + y) a

/-- The call returns, whatever `sbrk` may return. -/
def Terminates (s : Heap) (nbytes : ℕ) : Prop :=
  ∀ r, s.mayReturn (coreBytes (units nbytes)) r → ∃ fuel t, malloc fuel s nbytes [r] = some t

/-- The number of units does not wrap, and either `sbrk` can be asked for them or a free block is
large enough. -/
def requestOk (s : Heap) : Act → Prop
  | .malloc _ nbytes _ => nbytes + 8 - 1 < 2 ^ 32 ∧ (units nbytes < 2 ^ 28 ∨
    (s.freep ≠ 0 ∧ ∃ k, units nbytes ≤ s.size (s.ptr^[k] s.base)))
  | .free .. => True

end Dockv6.Malloc
