import Dockv6.Disk.Layout
import Dockv6.Kernel.CString
import Dockv6.Kernel.Stop

/-!
# Blocks and inodes

The block allocator and the functions on the contents of an inode of `fs.c`. A function takes the
disk and the in-memory copy of the inode, and returns them. Reading and writing go block by block;
the numbers are 32-bit ones.
-/

namespace Dockv6.Disk

/-! ## Blocks -/

/-- Allocate a zeroed disk block: the first one whose bit is clear. -/
def balloc (s : Img) : Res (ℕ × Img) :=
  match (List.range s.sb.size).find? fun b => !s.used b with
  | none => .error (.panic "balloc: out of blocks")
  | some b =>
    let s := s.write (s.sb.bblock b) (setBit (s.blk (s.sb.bblock b)) (b % BPB))
    .ok (b, s.write b fun _ => 0)

/-! ## Contents of an inode -/

/-- Entry `j` of an indirect block. -/
def entry (b : Block) (j : ℕ) : ℕ := getLe b (4 * j) 4

/-- `addrs[k]`, which is allocated if there is none. -/
def allocAddr (s : Img) (d : Dinode) (k : ℕ) : Res (ℕ × Dinode × Img) :=
  if d.addr k = 0 then do
    let (b, s) ← balloc s
    return (b, d.setAddr k b, s)
  else .ok (d.addr k, d, s)

/-- Entry `j` of the indirect block `ind`, which is allocated if there is none. -/
def allocEntry (s : Img) (ind j : ℕ) : Res (ℕ × Img) :=
  if entry (s.blk ind) j = 0 then do
    let (b, s) ← balloc s
    return (b, s.write ind (putLe (s.blk ind) (4 * j) 4 b))
  else .ok (entry (s.blk ind) j, s)

/-- The block with the number `bn` of the inode, which is allocated if there is none. -/
def bmap (s : Img) (d : Dinode) (bn : ℕ) : Res (ℕ × Dinode × Img) :=
  if bn < NDIRECT then allocAddr s d bn
  else if bn - NDIRECT < NINDIRECT then do
    let (ind, d, s) ← allocAddr s d NDIRECT
    let (b, s) ← allocEntry s ind (bn - NDIRECT)
    return (b, d, s)
  else .error (.panic "bmap: out of range")

/-- Copy a modified in-memory inode to disk. -/
def iupdate (s : Img) (n : ℕ) (d : Dinode) : Img :=
  s.write (s.sb.iblock n) (d.put (s.blk (s.sb.iblock n)) (n % IPB))

/-- The functions of a device; a null one is `none`. -/
structure Devsw where
  read : Option (ℕ → Option Bytes)
  write : Option (Bytes → Int)

/-- Devices, by their major number. -/
abbrev NDEV : ℕ := 10

/-- The loop of `readi`, with `n` bytes to go from `off` on. Each round reads at least one of
them. -/
def readRounds : ℕ → Img → Dinode → ℕ → ℕ → Res (Bytes × Dinode × Img)
  | 0, s, d, _, _ => .ok ([], d, s)
  | k + 1, s, d, off, n =>
    if n = 0 then .ok ([], d, s)
    else do
      let (b, d, s) ← bmap s d (off / BSIZE)
      let m := min n (BSIZE - off % BSIZE)
      let data := slice (s.blk b) (off % BSIZE) m
      let (rest, d, s) ← readRounds k s d (off + m) (n - m)
      return (data ++ rest, d, s)

/-- Read data from an inode: `none` is the result `-1`. -/
def readi (devsw : ℕ → Devsw) (s : Img) (d : Dinode) (off n : ℕ) : Res
    (Option Bytes × Dinode × Img) :=
  if d.type = T_DEV then
    -- A negative major number is a large one here.
    if NDEV ≤ d.major then .ok (none, d, s)
    else
      match (devsw d.major).read with
      | none => .ok (none, d, s)
      | some read => .ok (read n, d, s)
  else if d.size < off ∨ (off + n) % 2 ^ 32 < off then .ok (none, d, s)
  else do
    let n := if d.size < (off + n) % 2 ^ 32 then d.size - off else n
    let (data, d, s) ← readRounds n s d off n
    return (some data, d, s)

/-- The loop of `writei`, with the bytes `data` to go at `off`. -/
def writeRounds : ℕ → Img → Dinode → ℕ → Bytes → Res (Dinode × Img)
  | 0, s, d, _, _ => .ok (d, s)
  | k + 1, s, d, off, data =>
    if data = [] then .ok (d, s)
    else do
      let (b, d, s) ← bmap s d (off / BSIZE)
      let m := min data.length (BSIZE - off % BSIZE)
      let s := s.write b (splice (s.blk b) (off % BSIZE) (data.take m))
      writeRounds k s d (off + m) (data.drop m)

/-- Write data to the inode `i`. -/
def writei (devsw : ℕ → Devsw) (s : Img) (i : ℕ) (d : Dinode) (off : ℕ) (data : Bytes) :
    Res (Int × Dinode × Img) :=
  if d.type = T_DEV then
    if NDEV ≤ d.major then .ok (-1, d, s)
    else
      match (devsw d.major).write with
      | none => .ok (-1, d, s)
      | some write => .ok (write data, d, s)
  else if d.size < off ∨ (off + data.length) % 2 ^ 32 < off then .ok (-1, d, s)
  else if MAXFILE * BSIZE < (off + data.length) % 2 ^ 32 then .ok (-1, d, s)
  else do
    let (d, s) ← writeRounds data.length s d off data
    if 0 < data.length ∧ d.size < off + data.length then
      let d := { d with size := off + data.length }
      return (data.length, d, iupdate s i d)
    else return (data.length, d, s)

end Dockv6.Disk
