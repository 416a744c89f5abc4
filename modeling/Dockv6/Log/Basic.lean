import Dockv6.Foundations.Run
import Dockv6.Foundations.Store
import Dockv6.Kernel.Param

/-!
# The log of `log.c`

A block is its `BSIZE / 4` words, so that the header block can be read as a `struct logheader`. The
log takes the `size` blocks from `start` on. A `bwrite` of one block is atomic, and the machine's
steps are the stretches between two of them. `cache` is what `bread` returns. A crash keeps the disk
and nothing else.

`base`, `old`, `cur` and `heads` are bookkeeping: the disk after the last `initlog`, the
transactions ended since then, the present one, and the positions in `old ++ [cur]` of those whose
first `write_head` reached the disk.
-/

namespace Dockv6.Log

open Function

/-- The number of words of a block, `BSIZE / 4`. -/
abbrev NWORDS : ℕ := 256

/-- A block: its words. -/
abbrev Block := Fin NWORDS → Int

/-- The blocks of a disk. -/
abbrev Disk := ℕ → Block

/-- A transaction: block numbers and their new contents, in the order of the `log_write`s. -/
abbrev Tx := List (ℕ × Block)

/-- `log.start` and `log.size`, from the superblock; the log has at least its header block. -/
structure Layout where
  start : ℕ
  size : ℕ
  size_pos : 0 < size

/-- A block outside the log area. -/
def Layout.home (L : Layout) (b : ℕ) : Prop := b < L.start ∨ L.start + L.size ≤ b

instance (L : Layout) (b : ℕ) : Decidable (L.home b) := inferInstanceAs (Decidable (_ ∨ _))

/-- The block of the log's data block number `i`. -/
def Layout.data (L : Layout) (i : ℕ) : ℕ := L.start + i + 1

/-! ## The header block -/

/-- Word `i` of a block. -/
def word (b : Block) (i : ℕ) : Int := b (Fin.ofNat NWORDS i)

/-- `read_head`: the first `n` entries of the array `block`. -/
def readHead (b : Block) : List ℕ :=
  (List.range (word b 0).toNat).map fun i => (word b (i + 1)).toNat

/-- `write_head`: `n` and the first `n` entries are stored, the rest of the block stays. -/
def writeHead (b : Block) (lh : List ℕ) : Block := fun j =>
  if j.val = 0 then lh.length
  else if h : j.val - 1 < lh.length then (lh.get ⟨j.val - 1, h⟩ : Int)
  else b j

theorem readHead_writeHead (b : Block) {lh : List ℕ} (h : lh.length ≤ LOGSIZE) :
    readHead (writeHead b lh) = lh := by
  have hn : (word (writeHead b lh) 0).toNat = lh.length := by
    simp [word, writeHead]
  have hw : ∀ i (hi : i < lh.length), (word (writeHead b lh) (i + 1)).toNat = lh[i] := by
    intro i hi
    have hmod : (i + 1) % NWORDS = i + 1 := Nat.mod_eq_of_lt (by
      simp only [LOGSIZE, MAXOPBLOCKS, NWORDS] at h ⊢
      omega)
    simp [word, writeHead, Fin.ofNat, hmod, hi]
  apply List.ext_getElem
  · simp [readHead, hn]
  · intro i h1 h2
    simp only [readHead, List.getElem_map, List.getElem_range]
    exact hw i h2

/-! ## The machine -/

/-- Where the log code is. -/
inductive Pc
  /-- Memory is lost; `recover_from_log` has not read the header. -/
  | boot
  /-- In the recovery's `install_trans`, before the block `tail`; at the end, before the
  `write_head` that clears the log. -/
  | recover (tail : ℕ)
  /-- `initlog` has finished. -/
  | ready
  /-- A transaction is being recorded. -/
  | recording
  /-- In `write_log`, before the block `tail`; at the end, before the `write_head` that
  commits. -/
  | writeLog (tail : ℕ)
  /-- In the commit's `install_trans`, before the block `tail`; at the end, before the
  `write_head` that erases the transaction. -/
  | install (tail : ℕ)
  /-- `log_write` has called `panic`. -/
  | panicked
  deriving DecidableEq

/-- The disk, its cache, and what was committed. -/
structure State where
  disk : Disk
  cache : Disk
  /-- The in-memory log header: the first `n` entries of `log.lh.block`. -/
  lh : List ℕ
  pc : Pc
  base : Disk
  old : List Tx
  cur : Tx
  heads : List ℕ

/-- The sequence of transactions since the last `initlog`. -/
def State.txs (s : State) : List Tx := s.old ++ [s.cur]

/-- What can happen next. -/
inductive Act
  /-- The file system is used: the first transaction starts. -/
  | start
  /-- The buffer of the home block `b` gets the contents `v`, and `log_write`. -/
  | write (b : ℕ) (v : Block)
  /-- The transaction ends: `commit`. -/
  | commit
  /-- The next stretch of `commit` or of `recover_from_log`. -/
  | step
  /-- Memory is lost. -/
  | crash

/-- Change a cached block and `bwrite` it. -/
def State.bwrite (s : State) (b : ℕ) (v : Block) : State :=
  { s with cache := update s.cache b v, disk := update s.disk b v }

/-- One round of the loop of `install_trans`: copy the log's block `tail` to `b`. -/
def State.installOne (L : Layout) (s : State) (tail b : ℕ) : State :=
  s.bwrite b (s.cache (L.data tail))

/-- `write_head` with the in-memory header `lh`. -/
def State.putHead (L : Layout) (s : State) (lh : List ℕ) : State :=
  { s.bwrite L.start (writeHead (s.cache L.start) lh) with lh := lh }

/-- `log_write(b)` after the buffer was changed to `v`. -/
def logWrite (L : Layout) (s : State) (b : ℕ) (v : Block) : State :=
  if LOGSIZE ≤ s.lh.length ∨ L.size ≤ s.lh.length + 1 then
    { s with cache := update s.cache b v, pc := .panicked }
  else
    { s with
      cache := update s.cache b v
      lh := if b ∈ s.lh then s.lh else s.lh ++ [b]
      cur := s.cur ++ [(b, v)] }

/-- `commit`: nothing to do when nothing was logged. -/
def commit (s : State) : State :=
  if s.lh = [] then { s with old := s.old ++ [s.cur], cur := [] } else { s with pc := .writeLog 0 }

/-- The next stretch of `commit` or of `recover_from_log`. -/
def step (L : Layout) (s : State) : Option State :=
  match s.pc with
  | .boot => some { s with lh := readHead (s.cache L.start), pc := .recover 0 }
  | .recover tail =>
    match s.lh[tail]? with
    | some b => some { s.installOne L tail b with pc := .recover (tail + 1) }
    | none => some { s.putHead L [] with pc := .ready }
  | .writeLog tail =>
    match s.lh[tail]? with
    | some b => some { s.bwrite (L.data tail) (s.cache b) with pc := .writeLog (tail + 1) }
    | none =>
      -- the first `write_head`: the transaction is committed
      some { s.putHead L s.lh with pc := .install 0, heads := s.heads ++ [s.old.length] }
  | .install tail =>
    match s.lh[tail]? with
    | some b => some { s.installOne L tail b with pc := .install (tail + 1) }
    | none =>
      some { s.putHead L [] with pc := .recording, old := s.old ++ [s.cur], cur := [] }
  | .ready | .recording | .panicked => none

/-- The machine with crashes, from a disk with an empty log. -/
def machine (L : Layout) : Machine State Act where
  init s :=
    readHead (s.disk L.start) = [] ∧ s.cache = s.disk ∧ s.pc = .boot ∧ s.base = s.disk ∧
      s.old = [] ∧ s.cur = [] ∧ s.heads = []
  step s
    | .start =>
      if s.pc = .ready then
        some { s with pc := .recording, base := s.disk, old := [], cur := [], heads := [] }
      else none
    | .write b v => if s.pc = .recording ∧ L.home b then some (logWrite L s b v) else none
    | .commit => if s.pc = .recording then some (commit s) else none
    | .step => step L s
    | .crash => some { s with cache := s.disk, lh := [], pc := .boot }

end Dockv6.Log
