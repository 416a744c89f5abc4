import Dockv6.Foundations.Bytes
import Dockv6.Kernel.Param

/-!
# The layout of the disk

The blocks of the disk as `fs.h` lays them out: the super block, the dinodes in the inode blocks,
the free bit map. `bread` and `log_write` read and change a block; the blocks that a transaction
passes to `log_write` are recorded.
-/

namespace Dockv6.Disk

open Function

/-- Block addresses in a dinode. -/
abbrev NDIRECT : ℕ := 12

/-- Addresses in the indirect block. -/
abbrev NINDIRECT : ℕ := BSIZE / 4

/-- Dinodes in a block. -/
abbrev IPB : ℕ := BSIZE / 64

/-- Bits in a block. -/
abbrev BPB : ℕ := BSIZE * 8

/-- A directory; an inode of type `0` is free. -/
abbrev T_DIR : ℕ := 1

/-- A file. -/
abbrev T_FILE : ℕ := 2

/-- A device. -/
abbrev T_DEV : ℕ := 3

/-- The contents of a block. -/
abbrev Block := ℕ → UInt8

/-! ## The super block -/

/-- `struct superblock` -/
structure Superblock where
  size : ℕ
  nblocks : ℕ
  ninodes : ℕ
  nlog : ℕ
  logstart : ℕ
  inodestart : ℕ
  bmapstart : ℕ
  deriving DecidableEq

/-- Read the super block. -/
def readsb (blk : ℕ → Block) : Superblock :=
  { size := getLe (blk 1) 0 4, nblocks := getLe (blk 1) 4 4, ninodes := getLe (blk 1) 8 4
    nlog := getLe (blk 1) 12 4, logstart := getLe (blk 1) 16 4, inodestart := getLe (blk 1) 20 4
    bmapstart := getLe (blk 1) 24 4 }

namespace Superblock

/-- The block with the dinode `n`. -/
def iblock (sb : Superblock) (n : ℕ) : ℕ := n / IPB + sb.inodestart

/-- The block with the bit for the block `b`. -/
def bblock (sb : Superblock) (b : ℕ) : ℕ := b / BPB + sb.bmapstart

/-- The first data block: the data blocks are the last ones. -/
def dataStart (sb : Superblock) : ℕ := sb.size - sb.nblocks

end Superblock

/-! ## Dinodes -/

/-- `struct dinode`. The numbers are the bits of its fields. -/
structure Dinode where
  type : ℕ
  major : ℕ
  minor : ℕ
  nlink : ℕ
  size : ℕ
  addrs : Fin (NDIRECT + 1) → ℕ

namespace Dinode

/-- `addrs[k]` -/
def addr (d : Dinode) (k : ℕ) : ℕ := d.addrs (Fin.ofNat (NDIRECT + 1) k)

/-- `addrs[k] = b` -/
def setAddr (d : Dinode) (k b : ℕ) : Dinode :=
  { d with addrs := update d.addrs (Fin.ofNat (NDIRECT + 1) k) b }

/-- The dinode number `i` of a block. -/
def get (b : Block) (i : ℕ) : Dinode :=
  { type := getLe b (64 * i) 2, major := getLe b (64 * i + 2) 2, minor := getLe b (64 * i + 4) 2
    nlink := getLe b (64 * i + 6) 2, size := getLe b (64 * i + 8) 4
    addrs := fun k => getLe b (64 * i + 12 + 4 * k) 4 }

/-- The four `short` fields. -/
def short (d : Dinode) : ℕ → ℕ
  | 0 => d.type
  | 1 => d.major
  | 2 => d.minor
  | _ => d.nlink

/-- The `uint` fields. -/
def uint (d : Dinode) : ℕ → ℕ
  | 0 => d.size
  | k + 1 => d.addr k

/-- The bytes of a dinode. -/
def byte (d : Dinode) (o : ℕ) : UInt8 :=
  if o < 8 then leByte (d.short (o / 2)) (o % 2) else leByte (d.uint ((o - 8) / 4)) ((o - 8) % 4)

/-- Store a dinode as the number `i` of a block. -/
def put (d : Dinode) (b : Block) (i : ℕ) : Block :=
  fun o => if o / 64 = i then d.byte (o % 64) else b o

/-- The numbers fit their fields. -/
structure Fits (d : Dinode) : Prop where
  type : d.type < 2 ^ 16
  major : d.major < 2 ^ 16
  minor : d.minor < 2 ^ 16
  nlink : d.nlink < 2 ^ 16
  size : d.size < 2 ^ 32
  addr : ∀ k, d.addr k < 2 ^ 32

variable {d : Dinode} {b : Block} {i j k x : ℕ}

theorem addr_setAddr (hk : k ≤ NDIRECT) (hj : j ≤ NDIRECT) :
    (d.setAddr k x).addr j = if j = k then x else d.addr j := by
  show update d.addrs _ x _ = _
  rw [update_apply]
  have hiff : Fin.ofNat (NDIRECT + 1) j = Fin.ofNat (NDIRECT + 1) k ↔ j = k := by
    rw [Fin.ext_iff, Fin.val_ofNat, Fin.val_ofNat, Nat.mod_eq_of_lt (by omega),
      Nat.mod_eq_of_lt (by omega)]
  simp only [hiff, addr]

theorem getLe_put_short (hj : j < 4) : getLe (d.put b i) (64 * i + 2 * j) 2 = d.short j %
    2 ^ 16 := by
  refine (getLe_eq_mod fun k hk => ?_ : _ = d.short j % 256 ^ 2)
  unfold put byte
  rw [if_pos (by omega), if_pos (by omega), show (64 * i + 2 * j + k) % 64 / 2 = j by omega,
    show (64 * i + 2 * j + k) % 64 % 2 = k by omega]

theorem getLe_put_uint (hj : j < 14) : getLe (d.put b i) (64 * i + 8 + 4 * j) 4 = d.uint j %
    2 ^ 32 := by
  refine (getLe_eq_mod fun k hk => ?_ : _ = d.uint j % 256 ^ 4)
  unfold put byte
  rw [if_pos (by omega), if_neg (by omega), show ((64 * i + 8 + 4 * j + k) % 64 - 8) /
    4 = j by omega, show ((64 * i + 8 + 4 * j + k) % 64 - 8) % 4 = k by omega]

/-- What was stored is read. -/
theorem get_put (h : d.Fits) : get (d.put b i) i = d := by
  have htype : getLe (d.put b i) (64 * i) 2 = d.type :=
    (getLe_put_short (by decide : 0 < 4)).trans (Nat.mod_eq_of_lt h.type)
  have hmajor : getLe (d.put b i) (64 * i + 2) 2 = d.major :=
    (getLe_put_short (by decide : 1 < 4)).trans (Nat.mod_eq_of_lt h.major)
  have hminor : getLe (d.put b i) (64 * i + 4) 2 = d.minor :=
    (getLe_put_short (by decide : 2 < 4)).trans (Nat.mod_eq_of_lt h.minor)
  have hnlink : getLe (d.put b i) (64 * i + 6) 2 = d.nlink :=
    (getLe_put_short (by decide : 3 < 4)).trans (Nat.mod_eq_of_lt h.nlink)
  have hsize : getLe (d.put b i) (64 * i + 8) 4 = d.size :=
    (getLe_put_uint (by decide : 0 < 14)).trans (Nat.mod_eq_of_lt h.size)
  have haddrs : (fun k : Fin (NDIRECT + 1) => getLe (d.put b i) (64 * i + 12 + 4 * k) 4) =
      d.addrs := by
    funext k
    have hk : (k : ℕ) + 1 < 14 := Nat.succ_lt_succ k.isLt
    rw [show 64 * i + 12 + 4 * (k : ℕ) = 64 * i + 8 + 4 * (k + 1) by omega, getLe_put_uint hk]
    exact (Nat.mod_eq_of_lt (h.addr k)).trans (congrArg d.addrs (Fin.ofNat_val_eq_self k))
  rw [get, htype, hmajor, hminor, hnlink, hsize, haddrs]

theorem get_put_of_ne (h : j ≠ i) : get (d.put b i) j = get b j := by
  have hsame : ∀ o n, o + n ≤ 64 → getLe (d.put b i) (64 * j + o) n = getLe b (64 * j + o) n :=
      fun o n ho =>
    getLe_congr fun k _ _ => if_neg (by omega)
  have haddrs : (fun k : Fin (NDIRECT + 1) => getLe (d.put b i) (64 * j + 12 + 4 * k) 4) =
      fun k : Fin (NDIRECT + 1) => getLe b (64 * j + 12 + 4 * k) 4 :=
    funext fun k => by
      have hk : (k : ℕ) < 13 := k.isLt
      rw [Nat.add_assoc]
      exact hsame _ _ (by omega)
  have htype : getLe (d.put b i) (64 * j) 2 = getLe b (64 * j) 2 := hsame 0 2 (by decide)
  rw [get, get, htype, hsame 2 2 (by decide), hsame 4 2 (by decide), hsame 6 2 (by decide),
    hsame 8 4 (by decide), haddrs]

end Dinode

/-! ## The disk -/

/-- The blocks of the disk, the super block as it was read, and the blocks that the transaction has
passed to `log_write`. -/
structure Img where
  blk : ℕ → Block
  sb : Superblock
  log : List ℕ

namespace Img

/-- The dinode `n` on the disk. -/
def dinode (s : Img) (n : ℕ) : Dinode := .get (s.blk (s.sb.iblock n)) (n % IPB)

/-- The bit of the block `b`. -/
def used (s : Img) (b : ℕ) : Bool := getBit (s.blk (s.sb.bblock b)) (b % BPB)

/-- Change a block, and `log_write` it. -/
def write (s : Img) (b : ℕ) (data : Block) : Img :=
  { s with blk := update s.blk b data, log := b :: s.log }

end Img

end Dockv6.Disk
