import Mathlib

/-!
# Constants of the kernel

The macros of `param.h`, `proc.h`, `cm.h`, `fs.h`, `mmu.h`, `memlayout.h`, `stat.h` and the bound
`NBIN` of `proc.c`, under the names the source gives them.
-/

namespace Dockv6

/-- Maximum number of processes. -/
abbrev NPROC : ℕ := 64

/-- Open files per process. -/
abbrev NOFILE : ℕ := 16

/-- Open files per system. -/
abbrev NFILE : ℕ := 100

/-- Maximum number of active i-nodes. -/
abbrev NINODE : ℕ := 50

/-- Shared pages per process, and in the system. -/
abbrev SHM_MAXNUM : ℕ := 4

/-- Mutexes per process, and in the system. -/
abbrev MUX_MAXNUM : ℕ := 16

/-- Container slots. -/
abbrev MAX_NUM_CONTAINERS : ℕ := 4

/-- Priority bins. -/
abbrev NBIN : ℕ := 16

/-- The largest value of a 32-bit `uint`, what the source writes as `-1`. -/
abbrev UINT_MAX : ℕ := 4294967295

/-- Bytes in a page. -/
abbrev PGSIZE : ℕ := 4096

/-- First kernel virtual address. -/
abbrev KERNBASE : ℕ := 0x80000000

/-- Top of physical memory. -/
abbrev PHYSTOP : ℕ := 0xE000000

/-- Maximum number of arguments of `exec`. -/
abbrev MAXARG : ℕ := 32

/-- Blocks any file-system call may write. -/
abbrev MAXOPBLOCKS : ℕ := 10

/-- Data blocks in the on-disk log, and the length of `logheader.block`. -/
abbrev LOGSIZE : ℕ := MAXOPBLOCKS * 3

/-- Bytes in a disk block. -/
abbrev BSIZE : ℕ := 1024

/-- Blocks of the largest file: twelve direct ones and one indirect block of numbers. -/
abbrev MAXFILE : ℕ := 12 + BSIZE / 4

/-- Bytes of a name in a directory entry. -/
abbrev DIRSIZ : ℕ := 14

/-- Device of the root file system. -/
abbrev ROOTDEV : ℕ := 1

/-- Root i-number. -/
abbrev ROOTINO : ℕ := 1

/-! The tables have an entry `0`. -/

instance : NeZero NPROC := ⟨by decide⟩

instance : NeZero NFILE := ⟨by decide⟩

instance : NeZero NINODE := ⟨by decide⟩

instance : NeZero SHM_MAXNUM := ⟨by decide⟩

instance : NeZero MUX_MAXNUM := ⟨by decide⟩

/-- For runs of two processes. -/
instance neZero_two : NeZero 2 := ⟨by decide⟩

end Dockv6
