import Dockv6.Kernel.Container

/-!
# Exec

`exec.c`, with `loaduvm` and `copyout` of `vm.c`. The file is the bytes that its inode holds; the
headers are read from them at the offsets that `elf.h` gives their fields.
-/

namespace Dockv6

open Kernel

/-! ## Contents of an inode -/

/-- The bytes of an entry: its number and its name. -/
def Dirent.bytes (de : Dirent) : Bytes :=
  [UInt8.ofNat de.inum, UInt8.ofNat (de.inum / 256)] ++ strncpyBytes de.name DIRSIZ

/-- What `readi` reads from an inode that is not a device. -/
def Node.content : Node → Bytes
  | .dir ents => ents.flatMap Dirent.bytes
  | .file data => data
  | _ => []

/-! ## ELF headers -/

/-- A little-endian number of `n` bytes at the offset `off`. -/
def leNat (data : Bytes) (off : ℕ) : ℕ → ℕ
  | 0 => 0
  | n + 1 => (data.getD off 0).toNat + 256 * leNat data (off + 1) n

/-- The first four bytes of a program. -/
abbrev ELF_MAGIC : ℕ := 0x464C457F

/-- The type of a segment to load. -/
abbrev ELF_PROG_LOAD : ℕ := 1

/-- Sizes of `struct elfhdr` and `struct proghdr`. -/
abbrev ELFHDR_SIZE : ℕ := 52

/-- `sizeof(struct proghdr)` -/
abbrev PROGHDR_SIZE : ℕ := 32

/-- The fields of `struct elfhdr` that `exec` reads. -/
structure Elfhdr where
  magic : ℕ
  entry : ℕ
  phoff : ℕ
  phnum : ℕ

/-- The fields of `struct proghdr` that `exec` reads. -/
structure Proghdr where
  type : ℕ
  off : ℕ
  vaddr : ℕ
  filesz : ℕ
  memsz : ℕ

/-- `readi` of the file header, which fails on a short file. -/
def readElf (data : Bytes) : Option Elfhdr :=
  if data.length < ELFHDR_SIZE then none
  else some { magic := leNat data 0 4, entry := leNat data 24 4, phoff := leNat data 28 4,
              phnum := leNat data 44 2 }

/-- `readi` of the program header at `off`. -/
def readPh (data : Bytes) (off : ℕ) : Option Proghdr :=
  if data.length < off + PROGHDR_SIZE then none
  else some { type := leNat data off 4, off := leNat data (off + 4) 4,
              vaddr := leNat data (off + 8) 4, filesz := leNat data (off + 16) 4,
              memsz := leNat data (off + 20) 4 }

/-! ## The new image -/

/-- The loop of `loaduvm`, with `n` pages to go from the page number `v`; `off` and `sz` are what is
left of the segment. -/
def loadRounds (data : Bytes) (d : Pgdir) : ℕ → Mem → ℕ → ℕ → ℕ → Res (Bool × Mem)
  | 0, mem, _, _, _ => .ok (true, mem)
  | n + 1, mem, v, off, sz =>
    match d.tab (v / NPTENTRIES) with
    | none => .error (.panic "loaduvm: address should exist")
    | some t =>
      match t.pte (v % NPTENTRIES) with
      | none => .error .undefined
      | some e =>
        if data.length < off + min sz PGSIZE then .ok (false, mem)
        else
          let page := fun k => if k < min sz PGSIZE then data.getD (off + k) 0 else mem e.ppn k
          loadRounds data d n (Function.update mem e.ppn page) (v + 1) (off + PGSIZE) (sz - PGSIZE)

/-- Load a program segment into the page table. -/
def loaduvm (data : Bytes) (d : Pgdir) (mem : Mem) (ph : Proghdr) : Res (Bool × Mem) :=
  if ph.vaddr % PGSIZE ≠ 0 then .error (.panic "loaduvm: addr must be page aligned")
  else loadRounds data d (pages ph.filesz) mem (ph.vaddr / PGSIZE) ph.off ph.filesz

/-- The loop of `exec` over the program headers: the size of the image so far, `none` when the
program cannot be loaded. -/
def loadSegments (data : Bytes) : ℕ → ℕ → ℕ → Pgdir → Kmem → Res (Option ℕ × Pgdir × Kmem)
  | 0, _, sz, d, m => .ok (some sz, d, m)
  | n + 1, off, sz, d, m =>
    match readPh data off with
    | none => .ok (none, d, m)
    | some ph =>
      if ph.type ≠ ELF_PROG_LOAD then loadSegments data n (off + PROGHDR_SIZE) sz d m
      else if ph.memsz < ph.filesz ∨ 2 ^ 32 ≤ ph.vaddr + ph.memsz then .ok (none, d, m)
      else do
        let (sz, d, m) ← allocuvm d m sz (ph.vaddr + ph.memsz)
        if sz = 0 ∨ ph.vaddr % PGSIZE ≠ 0 then return (none, d, m)
        else
          let (ok, mem) ← loaduvm data d m.mem ph
          let m := { m with mem := mem }
          if ok then loadSegments data n (off + PROGHDR_SIZE) sz d m else return (none, d, m)

/-- Is the page table `i` one of those that every directory has for the kernel? None of its entries
has `PTE_U`. -/
def kernTable (i : ℕ) : Bool :=
  NUSERPAGES / NPTENTRIES ≤ i ∧
    (i < NUSERPAGES / NPTENTRIES + (NKERNTABLES - 8) ∨ NPTENTRIES - 8 ≤ i)

/-- `copyout`, byte by byte: it fails at a page that is missing or has no `PTE_U`, and follows a
null pointer where there is no page table. -/
def copyout (d : Pgdir) (mem : Mem) (va : ℕ) : Bytes → Res (Bool × Mem)
  | [] => .ok (true, mem)
  | b :: bs =>
    match d.tab (va / PGSIZE / NPTENTRIES) with
    | none => if kernTable (va / PGSIZE / NPTENTRIES) then .ok (false, mem) else .error .undefined
    | some t =>
      match t.pte (va / PGSIZE % NPTENTRIES) with
      | none => .ok (false, mem)
      | some e =>
        if e.flags / PTE_U % 2 = 1 then
          copyout d (Function.update mem e.ppn (Function.update (mem e.ppn) (va % PGSIZE) b))
            ((va + 1) % 2 ^ 32) bs
        else .ok (false, mem)

/-- The four bytes of a word. -/
def wordBytes (w : ℕ) : Bytes :=
  [UInt8.ofNat w, UInt8.ofNat (w / 256), UInt8.ofNat (w / 256 ^ 2), UInt8.ofNat (w / 256 ^ 3)]

/-- The loop of `exec` over the arguments: where the stack is now and the addresses of the strings
so far, or `none` when it fails. -/
def pushArgs (d : Pgdir) : List Bytes → ℕ → List ℕ → Mem → Res (Option (ℕ × List ℕ) × Mem)
  | [], sp, ptrs, mem => .ok (some (sp, ptrs), mem)
  | arg :: args, sp, ptrs, mem =>
    if MAXARG ≤ ptrs.length then .ok (none, mem)
    else do
      let sp := (sp + 2 ^ 32 - (strlen arg + 1)) % 2 ^ 32 / 4 * 4
      let (ok, mem) ← copyout d mem sp (cstr arg ++ [0])
      if ok then pushArgs d args sp (ptrs ++ [sp]) mem else return (none, mem)

/-- The stack of the new image, from the top `sp`: the strings, and below them the fake return
address, the count and the pointers. -/
def pushStack (d : Pgdir) (argv : List Bytes) (sp : ℕ) (mem : Mem) :
    Res (Option ℕ × Mem) := do
  let (r, mem) ← pushArgs d argv sp [] mem
  match r with
  | none => return (none, mem)
  | some (sp, ptrs) =>
    let argc := ptrs.length
    let argp := (sp + 2 ^ 32 - (argc + 1) * 4) % 2 ^ 32
    let ustack := [UINT_MAX, argc, argp] ++ ptrs ++ [0]
    let sp := (sp + 2 ^ 32 - (3 + argc + 1) * 4) % 2 ^ 32
    let (ok, mem) ← copyout d mem sp (ustack.flatMap wordBytes)
    return (if ok then some sp else none, mem)

/-- Clear `PTE_U` on a page. -/
def clearpteu (d : Pgdir) (v : ℕ) : Res Pgdir :=
  match d.tab (v / NPTENTRIES) with
  | none => .error (.panic "clearpteu")
  | some t =>
    match t.pte (v % NPTENTRIES) with
    | none => .ok d
    | some e => .ok (d.setPte v (some { e with flags := e.flags - e.flags / PTE_U % 2 * PTE_U }))

/-- The new image: its directory, size, stack pointer and entry point; or the directory alone, when
it could not be completed. -/
structure NewImage where
  d : Pgdir
  sz : ℕ
  sp : ℕ

/-- `exec` from where the program is loaded, at the size `sz`: the two pages above it, and the
arguments. -/
def buildStack (d : Pgdir) (m : Kmem) (sz : ℕ) (argv : List Bytes) :
    Res (Option NewImage × Pgdir × Kmem) := do
  let top := pages sz * PGSIZE
  let (sz, d, m) ← allocuvm d m top (top + 2 * PGSIZE)
  if sz = 0 then return (none, d, m)
  else
    let d ← clearpteu d (sz / PGSIZE - 2)
    let (sp, mem) ← pushStack d argv sz m.mem
    return (sp.map fun sp => { d := d, sz := sz, sp := sp }, d, { m with mem := mem })

/-- Build the image of the program: `none`, and the directory so far, when it fails. -/
def buildImage (data : Bytes) (elf : Elfhdr) (argv : List Bytes) (d : Pgdir)
    (m : Kmem) : Res (Option NewImage × Pgdir × Kmem) := do
  let (sz, d, m) ← loadSegments data elf.phnum elf.phoff 0 d m
  match sz with
  | none => return (none, d, m)
  | some sz => buildStack d m sz argv

/-- The name of the program: what follows the last slash of the path. -/
def lastElem (path : Bytes) : Bytes :=
  (((cstr path).reverse).takeWhile (· != slash)).reverse

/-- Commit to the new image: the old one is freed. -/
def execCommit (s : Kernel) (p : PIdx) (path : Bytes) (entry : ℕ) (img : NewImage) (old : Pgdir) :
    Res Kernel := do
  let x := s.proc p
  let s := s.setProc p
    { x with
      name := safestrcpy x.name (lastElem path) 16
      pgdir := some img.d
      sz := img.sz
      tf := { x.tf with eip := entry, esp := img.sp } }
  let m ← freevm (s.sharedPas p) old s.km
  return { s with km := m }

/-- The end of `exec`: the new image takes the place of the old one, or what there is of it is
freed. -/
def execEnd (s : Kernel) (p : PIdx) (old : Pgdir) (path : Bytes) (entry : ℕ) (img : Option NewImage)
    (d : Pgdir) (m : Kmem) : Res (Int × Kernel) :=
  match img with
  | none => do
    let m ← freevm (s.sharedPas p) d m
    return (-1, { s with km := m })
  | some img => do
    let s ← execCommit { s with km := m } p path entry img old
    return (0, s)

/-- `exec` with the header and the bytes of the program. -/
def execElf (s : Kernel) (p : PIdx) (old : Pgdir) (path data : Bytes) (elf : Elfhdr)
    (argv : List Bytes) : Res (Int × Kernel) := do
  let (d, m) ← setupkvm (s.sharedPas p) s.km
  match d with
  | none => return (-1, { s with km := m })
  | some d =>
    let (img, d, m) ← buildImage data elf argv d m
    execEnd s p old path elf.entry img d m

/-- Replace the image of the process by a program. The inode of the program is put back before the
new image is complete or on the way out; this makes no difference to it. -/
def exec (s : Kernel) (p : PIdx) (path : Bytes) (argv : List Bytes) : Res (Int × Kernel) :=
  match (s.proc p).pgdir with
  | none => .error .undefined
  | some old => do
    let (ip, s) ← nameiProc s p old path
    match ip with
    | none => return (-1, s)
    | some ip =>
      let fs ← ilock s.fs ip
      let data := (fs.node ip).content
      let fs ← iunlockput fs ip
      let s := { s with fs := fs }
      match readElf data with
      | none => return (-1, s)
      | some elf =>
        if elf.magic ≠ ELF_MAGIC then return (-1, s)
        else execElf s p old path data elf argv

section Cases

variable {s s' : Kernel} {p : PIdx} {old : Pgdir} {path data : Bytes} {elf : Elfhdr}
  {argv : List Bytes} {r : Int}

/-- The ways out of `exec` once the program is read: no directory, no image, or the new image. -/
theorem execElf_cases (h : execElf s p old path data elf argv = .ok (r, s')) :
    (∃ m, setupkvm (s.sharedPas p) s.km = .ok (none, m) ∧ s' = { s with km := m }) ∨
    ∃ d m img d' m', setupkvm (s.sharedPas p) s.km = .ok (some d, m) ∧
      buildImage data elf argv d m = .ok (img, d', m') ∧
      ((∃ m'', img = none ∧ freevm (s.sharedPas p) d' m' = .ok m'' ∧ s' = { s with km := m'' }) ∨
        ∃ x, img = some x ∧ execCommit { s with km := m' } p path elf.entry x old = .ok s') := by
  obtain ⟨⟨d, m⟩, hsetup, h⟩ := bind_eq_ok.mp h
  rcases d with _ | d
  · cases h
    exact .inl ⟨m, hsetup, rfl⟩
  obtain ⟨⟨img, d', m'⟩, hbuild, h⟩ := bind_eq_ok.mp h
  refine .inr ⟨d, m, img, d', m', hsetup, hbuild, ?_⟩
  rcases img with _ | img
  · obtain ⟨m'', hfree, h⟩ := bind_eq_ok.mp h
    cases h
    exact .inl ⟨m'', rfl, hfree, rfl⟩
  · obtain ⟨s1, hcommit, h⟩ := bind_eq_ok.mp h
    cases h
    exact .inr ⟨img, rfl, hcommit⟩

/-- The ways out of `exec`: there is no file, it is not a program, or it is read. -/
theorem exec_cases (h : exec s p path argv = .ok (r, s')) :
    ∃ old ip s1, (s.proc p).pgdir = some old ∧ nameiProc s p old path = .ok (ip, s1) ∧
      ((ip = none ∧ s' = s1) ∨ ∃ i fs fs', ip = some i ∧ ilock s1.fs i = .ok fs ∧
        iunlockput fs i = .ok fs' ∧ (s' = { s1 with fs := fs' } ∨
          ∃ data elf, execElf { s1 with fs := fs' } p old path data elf argv = .ok (r, s'))) := by
  unfold exec at h
  split at h
  · cases h
  rename_i old hold
  obtain ⟨⟨ip, s1⟩, hnamei, h⟩ := bind_eq_ok.mp h
  refine ⟨old, ip, s1, hold, hnamei, ?_⟩
  rcases ip with _ | i
  · cases h
    exact .inl ⟨rfl, rfl⟩
  obtain ⟨fs, hlock, h⟩ := bind_eq_ok.mp h
  obtain ⟨fs', hput, h⟩ := bind_eq_ok.mp h
  refine .inr ⟨i, fs, fs', rfl, hlock, hput, ?_⟩
  dsimp only at h
  split at h
  · cases h
    exact .inl rfl
  · split_ifs at h
    · cases h
      exact .inl rfl
    · exact .inr ⟨_, _, h⟩

end Cases

end Dockv6
