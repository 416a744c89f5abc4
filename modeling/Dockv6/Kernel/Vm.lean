import Dockv6.Kernel.Stop
import Dockv6.Kernel.Struct

/-!
# Virtual memory

`kalloc.c` and the functions of `vm.c` on page tables: a function takes the page directory and
`kmem`, and returns them. `walkpgdir` is folded into its callers, and `mapPage` is one round of
`mappages`.

The kernel runs on the page table of the current process, so a null pointer that it follows leads
into that process's memory: `uread`, `ustore` and `ustring` are these accesses.
-/

namespace Dockv6

open Function

/-- Pages in the user half of an address space. -/
abbrev NUSERPAGES : ℕ := KERNBASE / PGSIZE

/-- Entries of a page table. -/
abbrev NPTENTRIES : ℕ := 1024

/-- Page tables that the kernel half of an address space takes: `kmap` maps the first 56 of them
(`PHYSTOP` bytes from `KERNBASE`) and the last 8 (the device space). -/
abbrev NKERNTABLES : ℕ := PHYSTOP / (NPTENTRIES * PGSIZE) + 8

/-- The flag bits `PTE_P`, `PTE_W`, `PTE_U`. -/
abbrev PTE_P : ℕ := 1

/-- A page that may be written. -/
abbrev PTE_W : ℕ := 2

/-- A page of the user. -/
abbrev PTE_U : ℕ := 4

/-- The number of pages that `sz` bytes take: `PGROUNDUP(sz) / PGSIZE`. -/
def pages (sz : ℕ) : ℕ := (sz + PGSIZE - 1) / PGSIZE

/-! ## Physical pages -/

/-- `kmem.freelist`: the address of the first free page, or null. -/
def freelist : List ℕ → ℕ
  | [] => 0
  | page :: _ => KERNBASE + page * PGSIZE

/-- The bytes of a page that was freed when the free pages were `free`: the link to the first of
them, and junk. -/
def freedPage (free : List ℕ) (i : ℕ) : UInt8 :=
  if i < 4 then UInt8.ofNat (freelist free / 256 ^ i) else 1

/-- Free a page: fill it with junk, and link it to the free pages. -/
def kfree (m : Kmem) (page : ℕ) : Res Kmem :=
  if page < m.first ∨ PHYSTOP / PGSIZE ≤ page then .error (.panic "kfree")
  else .ok { m with free := page :: m.free, mem := update m.mem page (freedPage m.free) }

/-- Allocate a page. -/
def kalloc (m : Kmem) : Option (ℕ × Kmem) :=
  match m.free with
  | [] => none
  | page :: free => some (page, { m with free := free })

/-- `memset(page, 0, PGSIZE)` -/
def Kmem.zero (m : Kmem) (page : ℕ) : Kmem :=
  { m with mem := update m.mem page fun _ => 0 }

/-! ## Page tables -/

namespace Pgdir

/-- The entry for the page number `v` of the user half, if it is present. -/
def pte (d : Pgdir) (v : ℕ) : Option Pte :=
  match d.tab (v / NPTENTRIES) with
  | none => none
  | some t => t.pte (v % NPTENTRIES)

/-- Write the entry for `v`, where there is a page table for it. -/
def setPte (d : Pgdir) (v : ℕ) (e : Option Pte) : Pgdir :=
  match d.tab (v / NPTENTRIES) with
  | none => d
  | some t =>
    let t := { t with pte := update t.pte (v % NPTENTRIES) e }
    { d with tab := update d.tab (v / NPTENTRIES) (some t) }

/-- Install an empty page table, kept in `page`, for the page number `v`. -/
def addTable (d : Pgdir) (v page : ℕ) : Pgdir :=
  let t := { page := page, pte := fun _ => none }
  { d with tab := update d.tab (v / NPTENTRIES) (some t) }

end Pgdir

/-- The entry that `mappages` writes: `pa | perm | PTE_P`. -/
def Pte.make (pa perm : ℕ) : Pte :=
  { ppn := pa / PGSIZE, flags := (pa % PGSIZE) ||| perm ||| PTE_P }

/-- One round of `mappages`. The Boolean says whether there was a page for the page table, if one
was needed. -/
def mapPage (d : Pgdir) (m : Kmem) (v pa perm : ℕ) : Res (Bool × Pgdir × Kmem) :=
  if NUSERPAGES ≤ v then .error (.panic "remap")
  else
    match d.tab (v / NPTENTRIES) with
    | some _ =>
      match d.pte v with
      | some _ => .error (.panic "remap")
      | none => .ok (true, d.setPte v (some (.make pa perm)), m)
    | none =>
      match kalloc m with
      | none => .ok (false, d, m)
      | some (page, m) =>
        .ok (true, (d.addTable v page).setPte v (some (.make pa perm)), m.zero page)

/-- The rounds of `mappages` from the page number `v` on. -/
def mapRounds : ℕ → Pgdir → Kmem → ℕ → ℕ → ℕ → Res (Bool × Pgdir × Kmem)
  | 0, d, m, _, _, _ => .ok (true, d, m)
  | n + 1, d, m, v, pa, perm => do
    let (ok, d, m) ← mapPage d m v pa perm
    if ok then mapRounds n d m (v + 1) (pa + PGSIZE) perm else return (false, d, m)

/-- Map the pages that the `size` bytes from `va` lie in, two of them for `PGSIZE` bytes that do not
start at a page. -/
def mappages (d : Pgdir) (m : Kmem) (va size pa perm : ℕ) : Res (Bool × Pgdir × Kmem) :=
  mapRounds ((va + size - 1) / PGSIZE - va / PGSIZE + 1) d m (va / PGSIZE) pa perm

/-- The loop of `deallocuvm` over the page numbers from `v` to `hi`; a missing page table is
skipped as a whole. -/
def deallocRounds : ℕ → Pgdir → Kmem → ℕ → ℕ → Res (Pgdir × Kmem)
  | 0, d, m, _, _ => .ok (d, m)
  | n + 1, d, m, v, hi =>
    if v < hi then
      match d.tab (v / NPTENTRIES) with
      | none => deallocRounds n d m ((v / NPTENTRIES + 1) * NPTENTRIES) hi
      | some t =>
        match t.pte (v % NPTENTRIES) with
        | none => deallocRounds n d m (v + 1) hi
        | some e =>
          if e.ppn = 0 then .error (.panic "kfree")
          else do
            let m ← kfree m e.ppn
            deallocRounds n (d.setPte v none) m (v + 1) hi
    else .ok (d, m)

/-- Deallocate user pages to bring the process size from `oldsz` to `newsz`. -/
def deallocuvm (d : Pgdir) (m : Kmem) (oldsz newsz : ℕ) : Res (ℕ × Pgdir × Kmem) :=
  if oldsz ≤ newsz then .ok (oldsz, d, m)
  else do
    let (d, m) ← deallocRounds (pages oldsz - pages newsz) d m (pages newsz) (pages oldsz)
    return (newsz, d, m)

/-- The loop of `allocuvm`, with `n` pages to go from the page number `v`. -/
def allocRounds : ℕ → Pgdir → Kmem → ℕ → ℕ → ℕ → Res (ℕ × Pgdir × Kmem)
  | 0, d, m, _, _, newsz => .ok (newsz, d, m)
  | n + 1, d, m, v, oldsz, newsz =>
    match kalloc m with
    | none => do
      let (_, d, m) ← deallocuvm d m newsz oldsz
      return (0, d, m)
    | some (page, m) => do
      let (ok, d, m) ← mappages d (m.zero page) (v * PGSIZE) PGSIZE (page * PGSIZE)
        (PTE_W ||| PTE_U)
      if ok then allocRounds n d m (v + 1) oldsz newsz
      else
        let (_, d, m) ← deallocuvm d m newsz oldsz
        let m ← kfree m page
        return (0, d, m)

/-- Allocate page tables and memory to grow a process from `oldsz` to `newsz`; `0` on error. -/
def allocuvm (d : Pgdir) (m : Kmem) (oldsz newsz : ℕ) : Res (ℕ × Pgdir × Kmem) :=
  if KERNBASE ≤ newsz then .ok (0, d, m)
  else if newsz < oldsz then .ok (oldsz, d, m)
  else allocRounds (pages newsz - pages oldsz) d m (pages oldsz) oldsz newsz

/-- Free the pages of `l`, one after another, but for those that are the address of a shared page
of the current process. -/
def freeAll (shared : List ℕ) (m : Kmem) : List ℕ → Res Kmem
  | [] => .ok m
  | page :: l =>
    if page * PGSIZE ∈ shared then freeAll shared m l
    else do
      let m ← kfree m page
      freeAll shared m l

/-- The pages of the page tables of a directory, in the order of their entries. -/
def Pgdir.tables (d : Pgdir) : List ℕ :=
  (List.range (NUSERPAGES / NPTENTRIES)).filterMap (fun i => (d.tab i).map PageTable.page) ++ d.kern

/-- Free a page table and all the memory in the user part. The test for shared pages is made on the
page tables. -/
def freevm (shared : List ℕ) (d : Pgdir) (m : Kmem) : Res Kmem := do
  let (_, d, m) ← deallocuvm d m KERNBASE 0
  let m ← freeAll shared m d.tables
  kfree m d.page

/-- The pages for the page tables of the kernel half, as many as there are up to `n`. -/
def kernTables : ℕ → Kmem → List ℕ → Bool × List ℕ × Kmem
  | 0, m, l => (true, l, m)
  | n + 1, m, l =>
    match kalloc m with
    | none => (false, l, m)
    | some (page, m) => kernTables n (m.zero page) (l ++ [page])

/-- Set up the kernel part of a page table; `none` when the memory does not suffice. -/
def setupkvm (shared : List ℕ) (m : Kmem) : Res (Option Pgdir × Kmem) :=
  match kalloc m with
  | none => .ok (none, m)
  | some (page, m) =>
    let (ok, kern, m) := kernTables NKERNTABLES (m.zero page) []
    let d := { page := page, tab := fun _ => none, kern := kern }
    if ok then .ok (some d, m)
    else do
      let m ← freevm shared d m
      return (none, m)

/-! ## Access to user memory from the kernel -/

/-- The byte at the user address `va`. -/
def uread (d : Pgdir) (mem : Mem) (va : ℕ) : Option UInt8 :=
  (d.pte (va / PGSIZE)).map fun e => mem e.ppn (va % PGSIZE)

/-- Write a byte at the user address `va`; a page that is missing or not writable faults. -/
def uwrite (d : Pgdir) (mem : Mem) (va : ℕ) (b : UInt8) : Res Mem :=
  match d.pte (va / PGSIZE) with
  | none => .error (.panic "trap")
  | some e =>
    if e.flags / PTE_W % 2 = 1 then
      .ok (update mem e.ppn (update (mem e.ppn) (va % PGSIZE) b))
    else .error (.panic "trap")

/-- Write the bytes `bs` from the user address `va` on. -/
def ustore (d : Pgdir) (mem : Mem) (va : ℕ) : Bytes → Res Mem
  | [] => .ok mem
  | b :: bs => do
    let mem ← uwrite d mem va b
    ustore d mem (va + 1) bs

/-- The 32-bit word at the user address `va`. -/
def uword (d : Pgdir) (mem : Mem) (va : ℕ) : Res ℕ :=
  match uread d mem va, uread d mem (va + 1), uread d mem (va + 2), uread d mem (va + 3) with
  | some b0, some b1, some b2, some b3 =>
    .ok (b0.toNat + 256 * (b1.toNat + 256 * (b2.toNat + 256 * b3.toNat)))
  | _, _, _, _ => .error (.panic "trap")

/-- Write a 32-bit word at the user address `va`. -/
def usetWord (d : Pgdir) (mem : Mem) (va w : ℕ) : Res Mem :=
  ustore d mem va [UInt8.ofNat w, UInt8.ofNat (w / 256), UInt8.ofNat (w / 256 ^ 2),
    UInt8.ofNat (w / 256 ^ 3)]

/-- `(*(int *)va)++` -/
def uincWord (d : Pgdir) (mem : Mem) (va : ℕ) : Res Mem := do
  let w ← uword d mem va
  usetWord d mem va (uinc w)

/-- The string at the user address `va`, of at most `n` bytes. -/
def ustring (d : Pgdir) (mem : Mem) : ℕ → ℕ → Res Bytes
  | 0, _ => .ok []
  | n + 1, va =>
    match uread d mem va with
    | none => .error (.panic "trap")
    | some b =>
      if b = 0 then .ok []
      else do
        let bs ← ustring d mem n (va + 1)
        return b :: bs

/-- `strncmp(p, (char *)va, n)` -/
def strncmpUser (d : Pgdir) (mem : Mem) (p : Bytes) : ℕ → ℕ → Res Int
  | _, 0 => .ok 0
  | va, n + 1 =>
    match uread d mem va with
    | none => .error (.panic "trap")
    | some b =>
      if deref p ≠ 0 ∧ deref p = b then strncmpUser d mem p.tail (va + 1) n
      else .ok ((deref p).toNat - b.toNat)

/-! ## Allocation and release -/

section Pages

variable {m m' : Kmem} {page : ℕ}

theorem kalloc_eq_none (h : kalloc m = none) : m.free = [] := by
  unfold kalloc at h
  split at h
  · assumption
  · cases h

theorem kalloc_eq_some (h : kalloc m = some (page, m')) :
    m.free = page :: m'.free ∧ m' = { m with free := m'.free } := by
  unfold kalloc at h
  split at h
  · cases h
  · cases h
    exact ⟨by assumption, rfl⟩

theorem kfree_eq_ok (h : kfree m page = .ok m') :
    m.first ≤ page ∧ page < PHYSTOP / PGSIZE ∧
      m' = { m with free := page :: m.free, mem := update m.mem page (freedPage m.free) } := by
  unfold kfree at h
  split_ifs at h with hp
  obtain ⟨hlo, hhi⟩ := not_or.mp hp
  exact ⟨Nat.not_lt.mp hlo, Nat.not_le.mp hhi, (Except.ok.inj h).symm⟩

end Pages

end Dockv6
