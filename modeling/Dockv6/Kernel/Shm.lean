import Dockv6.Kernel.Vm

/-!
# Shared memory

`shm_get` and `shm_rem` of `vm.c`. The names are compared over the length of the name asked for.
When all four entries of the process are in use, `shm_get` goes on with a null `struct shmem *`,
which lies in the memory of the process.
-/

namespace Dockv6

open Function

/-- The offset of `name` in `struct shmem`. -/
abbrev SHMEM_NAME_OFF : ℕ := 4

/-- The offset of `va`. -/
abbrev SHMEM_VA_OFF : ℕ := 20

/-- The offset of `global_ptr`. -/
abbrev SHMEM_PTR_OFF : ℕ := 24

/-- The offset of `refcount` in `struct shared_mem`. -/
abbrev REFCOUNT_OFF : ℕ := 20

/-- `sizeof(struct shared_mem)` -/
abbrev SHARED_MEM_SIZE : ℕ := 32

namespace Kernel

/-- The physical addresses of the shared pages that the process uses. -/
def sharedPas (s : Kernel) (p : PIdx) : List ℕ :=
  (List.finRange SHM_MAXNUM).filterMap fun i =>
    let e := (s.proc p).shared_mem i
    if e.in_use then e.global_ptr.map (fun g => (s.shm g).pa) else none

/-- The first entry of the process that is not in use. -/
def freeShmem (s : Kernel) (p : PIdx) : Option ShmIdx :=
  (List.finRange SHM_MAXNUM).find? (fun i => !((s.proc p).shared_mem i).in_use)

/-- Does the name of the entry start with `name`? -/
def shmemNamed (s : Kernel) (p : PIdx) (name : Bytes) (i : ShmIdx) : Bool :=
  strncmp ((s.proc p).shared_mem i).name name (strlen name) == 0

/-- The first entry of the process whose name starts with `name`, in use or not. -/
def findShmem (s : Kernel) (p : PIdx) (name : Bytes) : Option ShmIdx :=
  (List.finRange SHM_MAXNUM).find? (s.shmemNamed p name)

/-- Is the slot of the container `cid`, and does its name start with `name`? -/
def shmNamed (s : Kernel) (name : Bytes) (cid : ℕ) (g : ShmIdx) : Bool :=
  strncmp (s.shm g).name name (strlen name) == 0 && (s.shm g).container_id == cid

/-- The first slot, in use or not, of the container `cid` whose name starts with `name`. -/
def findShm (s : Kernel) (name : Bytes) (cid : ℕ) : Option ShmIdx :=
  (List.finRange SHM_MAXNUM).find? (s.shmNamed name cid)

/-- The first slot that is not in use. -/
def freeShm (s : Kernel) : Option ShmIdx :=
  (List.finRange SHM_MAXNUM).find? (fun i => !(s.shm i).in_use)

/-- `p->shared_mem[i] = e` -/
def setShmem (s : Kernel) (p : PIdx) (i : ShmIdx) (e : Shmem) : Kernel :=
  s.setProc p { s.proc p with shared_mem := update (s.proc p).shared_mem i e }

/-- Put back a process's page directory, and `kmem`. -/
def setVm (s : Kernel) (p : PIdx) (d : Pgdir) (m : Kmem) : Kernel :=
  { s.setProc p { s.proc p with pgdir := some d } with km := m }

end Kernel

open Kernel

/-- The entry of the process for the new page, or what lies at address `0` in its place. -/
def shmFill (s : Kernel) (p : PIdx) (d : Pgdir) (name : Bytes) (i : Option ShmIdx) (va : ℕ)
    (g : ShmIdx) : Res Kernel :=
  match i with
  | some i =>
    if strlen name ≤ 16 then
      let e := (s.proc p).shared_mem i
      .ok (s.setShmem p i
        { in_use := true, name := strncpy e.name name (strlen name), va := va,
          global_ptr := some g })
    else .error .undefined
  | none => do
    let mem ← ustore d s.km.mem SHMEM_NAME_OFF (strncpyBytes name (strlen name))
    let mem ← usetWord d mem SHMEM_VA_OFF va
    let mem ← usetWord d mem SHMEM_PTR_OFF (s.shmAddr + SHARED_MEM_SIZE * g)
    let mem ← usetWord d mem 0 1
    return { s with km := { s.km with mem := mem } }

/-- The end of `shm_get`, with the page of the slot `g` mapped behind the image. -/
def shmAttach (s : Kernel) (p : PIdx) (d : Pgdir) (name : Bytes) (i : Option ShmIdx)
    (g : ShmIdx) : Res (Int × Kernel) := do
  let sz := (s.proc p).sz
  let s := s.setProc p { s.proc p with sz := (sz + PGSIZE) % 2 ^ 32 }
  let s ← shmFill s p d name i sz g
  let slot := s.shm g
  let s := s.setShm g
    { slot with refcount := uinc slot.refcount, container_id := (s.proc p).container_id }
  return ((sz : Int), s)

/-- Map the existing page of the slot `g`. -/
def shmJoin (s : Kernel) (p : PIdx) (d : Pgdir) (name : Bytes) (i : Option ShmIdx) (g : ShmIdx) :
    Res (Int × Kernel) := do
  let a := pages (s.proc p).sz * PGSIZE
  let (ok, d, m) ← mappages d s.km a PGSIZE (s.shm g).pa (PTE_W ||| PTE_U)
  let s := s.setVm p d m
  if ok then shmAttach s p d name i g else return (-1, s)

/-- Create a page in the free slot `g`. -/
def shmNew (s : Kernel) (p : PIdx) (d : Pgdir) (name : Bytes) (i : Option ShmIdx) (g : ShmIdx) :
    Res (Int × Kernel) :=
  let s := s.setShm g { s.shm g with in_use := true }
  match kalloc s.km with
  | none => .ok (-1, s)
  | some (page, m) => do
    let a := pages (s.proc p).sz * PGSIZE
    let (ok, d, m) ← mappages d (m.zero page) a PGSIZE (page * PGSIZE) (PTE_W ||| PTE_U)
    if !ok then throw (.panic "mem")
    else if 16 < strlen name then throw .undefined
    else
      let s := s.setVm p d m
      let slot := s.shm g
      let s := s.setShm g
        { slot with name := strncpy slot.name name (strlen name), pa := page * PGSIZE }
      shmAttach s p d name i g

/-- Map the shared page with this name into the process; its address is where the image ended. -/
def shmGet (s : Kernel) (p : PIdx) (name : Bytes) : Res (Int × Kernel) :=
  match (s.proc p).pgdir with
  | none => .error .undefined
  | some d => do
    -- The test for a null name compares with the memory of the process.
    let r ← strncmpUser d s.km.mem name 0 (strlen name)
    if r = 0 then return (-1, s)
    else if (s.findShmem p name).isSome then return (-1, s)
    else
      match s.findShm name (s.proc p).container_id with
      | some g => shmJoin s p d name (s.freeShmem p) g
      | none =>
        match s.freeShm with
        | none => return (-1, s)
        | some g => shmNew s p d name (s.freeShmem p) g

/-- `strncpy(name, "", strlen(name))` -/
def clearName (name : Bytes) : Bytes := strncpy name [] (strlen name)

theorem cstr_clearName (name : Bytes) : cstr (clearName name) = [] := by
  unfold clearName strncpy strncpyBytes
  rcases hn : strlen name with _ | n
  · simpa [strlen] using hn
  · simp [List.replicate_succ, cstr_cons]

/-- The end of `shm_rem`: the entry is unmapped and emptied, and the image loses a page. -/
def shmDetach (s : Kernel) (p : PIdx) (d : Pgdir) (i : ShmIdx) : Kernel :=
  let e := (s.proc p).shared_mem i
  let x := s.proc p
  s.setProc p
    { x with
      pgdir := some (d.setPte (e.va / PGSIZE) none)
      shared_mem := update x.shared_mem i { e with name := clearName e.name, va := UINT_MAX }
      sz := (x.sz + 2 ^ 32 - PGSIZE) % 2 ^ 32 }

/-- `shm_rem` with the slot `g` and the entry `i` found. -/
def shmRemove (s : Kernel) (p : PIdx) (d : Pgdir) (g i : ShmIdx) : Res Kernel :=
  let e := (s.proc p).shared_mem i
  let slot := s.shm g
  let s := s.setShmem p i { e with in_use := false }
  if NUSERPAGES ≤ e.va / PGSIZE ∨ (d.tab (e.va / PGSIZE / NPTENTRIES)).isNone then .error .undefined
  else if slot.refcount = 1 then
    match d.pte (e.va / PGSIZE) with
    | none => .error (.panic "kfree")
    | some pte => do
      let m ← kfree s.km pte.ppn
      let s := { s with km := m }
      let s := s.setShm g
        { slot with pa := UINT_MAX, in_use := false, refcount := 0, name := clearName slot.name }
      return shmDetach s p d i
  else .ok (shmDetach (s.setShm g { slot with refcount := udec slot.refcount }) p d i)

/-- Remove the shared page with this name from the process. -/
def shmRem (s : Kernel) (p : PIdx) (name : Bytes) : Res (Int × Kernel) :=
  match s.findShm name (s.proc p).container_id with
  | none => .ok (-1, s)
  | some g =>
    match s.findShmem p name with
    | none => .ok (-1, s)
    | some i =>
      match (s.proc p).pgdir with
      | none => .error .undefined
      | some d => do
        let s ← shmRemove s p d g i
        return (0, s)

/-! ## The outcomes -/

section Outcomes

variable {s s' : Kernel} {p : PIdx} {d : Pgdir} {name : Bytes} {i g : ShmIdx} {r : Int}

theorem shmemNamed_of_findShmem (h : s.findShmem p name = some i) : s.shmemNamed p name i = true :=
  List.find?_some h

theorem shmNamed_of_findShm {cid : ℕ} (h : s.findShm name cid = some g) :
    s.shmNamed name cid g = true :=
  List.find?_some h

theorem freeShmem_eq_some (h : s.freeShmem p = some i) :
    ((s.proc p).shared_mem i).in_use = false := by
  simpa using List.find?_some h

theorem freeShmem_of_exists (h : ∃ i, ((s.proc p).shared_mem i).in_use = false) :
    ∃ i, s.freeShmem p = some i := by
  obtain ⟨j, hj⟩ := h
  refine Option.ne_none_iff_exists'.mp fun hnone => ?_
  exact List.find?_eq_none.mp hnone j (List.mem_finRange j) (by simp [hj])

theorem freeShm_eq_some (h : s.freeShm = some g) : (s.shm g).in_use = false := by
  simpa using List.find?_some h

/-- The process after `shm_rem` with the entry `i`. -/
def Proc.detached (x : Proc) (d : Pgdir) (i : ShmIdx) : Proc :=
  { x with
    pgdir := some (d.setPte ((x.shared_mem i).va / PGSIZE) none)
    shared_mem := update x.shared_mem i
      { x.shared_mem i with
        in_use := false, name := clearName (x.shared_mem i).name, va := UINT_MAX }
    sz := (x.sz + 2 ^ 32 - PGSIZE) % 2 ^ 32 }

section Detached

variable (x : Proc) (d : Pgdir) (i : ShmIdx)

@[simp] theorem Proc.detached_state : (x.detached d i).state = x.state := by
  rw [Proc.detached]

@[simp] theorem Proc.detached_ofile : (x.detached d i).ofile = x.ofile := by
  rw [Proc.detached]

@[simp] theorem Proc.detached_kstack : (x.detached d i).kstack = x.kstack := by
  rw [Proc.detached]

@[simp] theorem Proc.detached_container_id : (x.detached d i).container_id = x.container_id := by
  rw [Proc.detached]

@[simp] theorem Proc.detached_pgdir :
    (x.detached d i).pgdir = some (d.setPte ((x.shared_mem i).va / PGSIZE) none) := by
  rw [Proc.detached]

theorem Proc.detached_shared_mem :
    (x.detached d i).shared_mem = update x.shared_mem i
      { x.shared_mem i with
        in_use := false, name := clearName (x.shared_mem i).name, va := UINT_MAX } := by
  rw [Proc.detached]

end Detached

/-- A slot when its last reference is gone. -/
def SharedMem.dealloc (x : SharedMem) : SharedMem :=
  { x with pa := UINT_MAX, in_use := false, refcount := 0, name := clearName x.name }

/-- A removal of the entry `i` and a reference to the slot `g`: the page at the address of the entry
is freed if the count is one. -/
inductive ShmRemoved (s : Kernel) (p : PIdx) (d : Pgdir) (g i : ShmIdx) : Kernel → Prop
  | last (e : Pte) (m : Kmem) (hcount : (s.shm g).refcount = 1)
      (he : d.pte (((s.proc p).shared_mem i).va / PGSIZE) = some e)
        (hm : kfree s.km e.ppn = .ok m) :
      ShmRemoved s p d g i
        { (s.setProc p ((s.proc p).detached d i)).setShm g (s.shm g).dealloc with km := m }
  | dropped (hcount : (s.shm g).refcount ≠ 1) :
      ShmRemoved s p d g i ((s.setProc p ((s.proc p).detached d i)).setShm g
        { s.shm g with refcount := udec (s.shm g).refcount })

theorem shmRem_cases (h : shmRem s p name = .ok (r, s')) :
    (s' = s ∧ (s.findShm name (s.proc p).container_id = none ∨ s.findShmem p name = none)) ∨
    ∃ g i d, s.findShm name (s.proc p).container_id = some g ∧ s.findShmem p name = some i ∧
      (s.proc p).pgdir = some d ∧ ((s.proc p).shared_mem i).va / PGSIZE < NUSERPAGES ∧
      ShmRemoved s p d g i s' := by
  unfold shmRem at h
  split at h
  · rename_i hg
    cases h
    exact .inl ⟨rfl, .inl hg⟩
  rename_i g hg
  split at h
  · rename_i hi
    cases h
    exact .inl ⟨rfl, .inr hi⟩
  rename_i i hi
  split at h
  · cases h
  rename_i d hd
  obtain ⟨s1, hrem, h⟩ := bind_eq_ok.mp h
  cases h
  unfold shmRemove at hrem
  dsimp only at hrem
  split_ifs at hrem with hva hcount
  · split at hrem
    · cases hrem
    · rename_i e he
      obtain ⟨m, hm, hrem⟩ := bind_eq_ok.mp hrem
      have hlast := ShmRemoved.last (g := g) e m hcount he hm
      refine .inr ⟨g, i, d, hg, hi, hd, Nat.lt_of_not_le (not_or.mp hva).1, ?_⟩
      cases hrem
      simpa [shmDetach, setShmem, Kernel.setProc, setShm, Proc.detached,
        SharedMem.dealloc] using hlast
  · have hdropped := ShmRemoved.dropped (d := d) (i := i) (p := p) hcount
    refine .inr ⟨g, i, d, hg, hi, hd, Nat.lt_of_not_le (not_or.mp hva).1, ?_⟩
    cases hrem
    simpa [shmDetach, setShmem, Kernel.setProc, setShm, Proc.detached] using hdropped

/-- The process after `shm_get` of the slot `g` with the entry `i`. -/
def Proc.attached (x : Proc) (d : Pgdir) (name : Bytes) (i g : ShmIdx) : Proc :=
  { x with
    pgdir := some d
    sz := (x.sz + PGSIZE) % 2 ^ 32
    shared_mem := update x.shared_mem i
      { in_use := true, name := strncpy (x.shared_mem i).name name (strlen name), va := x.sz,
        global_ptr := some g } }

section Attached

variable (x : Proc) (d : Pgdir) (name : Bytes) (i g : ShmIdx)

@[simp] theorem Proc.attached_state : (x.attached d name i g).state = x.state := by
  rw [Proc.attached]

@[simp] theorem Proc.attached_ofile : (x.attached d name i g).ofile = x.ofile := by
  rw [Proc.attached]

@[simp] theorem Proc.attached_kstack : (x.attached d name i g).kstack = x.kstack := by
  rw [Proc.attached]

@[simp] theorem Proc.attached_pgdir : (x.attached d name i g).pgdir = some d := by
  rw [Proc.attached]

theorem Proc.attached_shared_mem :
    (x.attached d name i g).shared_mem = update x.shared_mem i
      { in_use := true, name := strncpy (x.shared_mem i).name name (strlen name), va := x.sz,
        global_ptr := some g } := by
  rw [Proc.attached]

end Attached

/-- The slot `x` with one more reference, by a process of the container `cid`. -/
def SharedMem.joined (x : SharedMem) (cid : ℕ) : SharedMem :=
  { x with refcount := uinc x.refcount, container_id := cid }

theorem shmAttach_eq_ok {o : Option ShmIdx} (h : shmAttach s p d name o g = .ok (r, s')) :
    r = (s.proc p).sz := by
  obtain ⟨s1, -, h1⟩ := bind_eq_ok.mp h
  cases h1
  rfl

theorem shmAttach_length (h : shmAttach s p d name (some i) g = .ok (r, s')) :
    strlen name ≤ 16 := by
  obtain ⟨s1, hfill, -⟩ := bind_eq_ok.mp h
  unfold shmFill at hfill
  dsimp only at hfill
  split_ifs at hfill with hlen
  exact hlen

theorem shmAttach_cases {m : Kmem}
    (h : shmAttach (s.setVm p d m) p d name (some i) g = .ok (r, s')) :
    s' = { (s.setProc p ((s.proc p).attached d name i g)).setShm g
      ((s.shm g).joined (s.proc p).container_id) with km := m } := by
  obtain ⟨s1, hfill, h⟩ := bind_eq_ok.mp h
  unfold shmFill at hfill
  dsimp only at hfill
  split_ifs at hfill
  cases hfill
  cases h
  simp [setShmem, Kernel.setProc, setShm, setVm, Proc.attached, SharedMem.joined]

/-- Does `shm_get` get past its own tests: the name is none of an entry, nor what lies at address
`0`? -/
def Kernel.asks (s : Kernel) (p : PIdx) (d : Pgdir) (name : Bytes) : Prop :=
  (∃ cmp, strncmpUser d s.km.mem name 0 (strlen name) = .ok cmp ∧ cmp ≠ 0) ∧
    s.findShmem p name = none

/-- The slot for a new page, named. -/
def SharedMem.made (x : SharedMem) (name : Bytes) (page : ℕ) : SharedMem :=
  { x with in_use := true, name := strncpy x.name name (strlen name), pa := page * PGSIZE }

/-- The outcomes of `shm_get` for a process with the directory `d`, up to the end that is the same
for a new page and for one that exists. -/
inductive ShmOutcome (s : Kernel) (p : PIdx) (d : Pgdir) (name : Bytes) : Int → Kernel → Prop
  | refused (h : ¬ s.asks p d name ∨
      s.findShm name (s.proc p).container_id = none ∧ s.freeShm = none) :
      ShmOutcome s p d name (-1) s
  | noTable (g : ShmIdx) (d' : Pgdir) (m : Kmem) (hask : s.asks p d name)
      (hg : s.findShm name (s.proc p).container_id = some g)
      (hmap : mappages d s.km (pages (s.proc p).sz * PGSIZE) PGSIZE (s.shm g).pa (PTE_W ||| PTE_U) =
        .ok (false, d', m)) :
      ShmOutcome s p d name (-1) (s.setVm p d' m)
  | joined (g : ShmIdx) (d' : Pgdir) (m : Kmem) (r : Int) (s' : Kernel) (hask : s.asks p d name)
      (hg : s.findShm name (s.proc p).container_id = some g)
      (hmap : mappages d s.km (pages (s.proc p).sz * PGSIZE) PGSIZE (s.shm g).pa (PTE_W ||| PTE_U) =
        .ok (true, d', m))
      (hend : shmAttach (s.setVm p d' m) p d' name (s.freeShmem p) g = .ok (r, s')) :
      ShmOutcome s p d name r s'
  | noPage (g : ShmIdx) (hask : s.asks p d name)
      (hg : s.findShm name (s.proc p).container_id = none) (hfree : s.freeShm = some g)
      (hpage : s.km.free = []) :
      ShmOutcome s p d name (-1) (s.setShm g { s.shm g with in_use := true })
  | made (g : ShmIdx) (page : ℕ) (free : List ℕ) (d' : Pgdir) (m : Kmem) (r : Int) (s' : Kernel)
      (hask : s.asks p d name) (hg : s.findShm name (s.proc p).container_id = none)
      (hfree : s.freeShm = some g) (hpage : s.km.free = page :: free) (hlen : strlen name ≤ 16)
      (hmap : mappages d (Kmem.zero { s.km with free := free } page) (pages (s.proc p).sz * PGSIZE)
        PGSIZE (page * PGSIZE) (PTE_W ||| PTE_U) = .ok (true, d', m))
      (hend : shmAttach ((s.setShm g ((s.shm g).made name page)).setVm p d' m) p d' name
        (s.freeShmem p) g = .ok (r, s')) :
      ShmOutcome s p d name r s'

theorem shmGet_outcome (h : shmGet s p name = .ok (r, s')) :
    ∃ d, (s.proc p).pgdir = some d ∧ ShmOutcome s p d name r s' := by
  unfold shmGet at h
  split at h
  · cases h
  rename_i d hd
  refine ⟨d, hd, ?_⟩
  obtain ⟨cmp, hcmp, h⟩ := bind_eq_ok.mp h
  split_ifs at h with hzero hheld
  · cases h
    refine .refused (.inl fun hask => ?_)
    obtain ⟨⟨cmp', hcmp', hne⟩, -⟩ := hask
    obtain rfl : cmp' = cmp := Except.ok.inj (hcmp'.symm.trans hcmp)
    exact hne hzero
  · cases h
    refine .refused (.inl fun hask => ?_)
    rw [hask.2] at hheld
    cases hheld
  have hask : s.asks p d name := ⟨⟨cmp, hcmp, hzero⟩, by simpa using hheld⟩
  split at h
  · rename_i g hg
    obtain ⟨⟨ok, d', m⟩, hmap, h⟩ := bind_eq_ok.mp h
    cases ok with
    | true => exact .joined g d' m r s' hask hg hmap h
    | false =>
      cases h
      exact .noTable g d' m hask hg hmap
  rename_i hg
  split at h
  · rename_i hfree
    cases h
    exact .refused (.inr ⟨hg, hfree⟩)
  rename_i g hfree
  unfold shmNew at h
  dsimp only at h
  split at h
  · rename_i hk
    cases h
    exact .noPage g hask hg hfree (kalloc_eq_none hk)
  · rename_i page m0 hk
    obtain ⟨hpage, hm0⟩ := kalloc_eq_some hk
    obtain ⟨⟨ok, d', m⟩, hmap, h⟩ := bind_eq_ok.mp h
    dsimp only at h
    split_ifs at h with hok hlen
    obtain rfl : ok = true := by simpa using hok
    rw [hm0] at hmap
    refine .made g page m0.free d' m r s' hask hg hfree hpage (Nat.le_of_not_lt hlen) hmap ?_
    simpa [setShm, setVm, Kernel.setProc, SharedMem.made] using h

/-- What `shm_get` does, when the entry `i` is free, to a process with the directory `d`. -/
inductive ShmGot (s : Kernel) (p : PIdx) (d : Pgdir) (name : Bytes) (i : ShmIdx) : Kernel → Prop
  | refused : ShmGot s p d name i s
  | noTable (g : ShmIdx) (d' : Pgdir) (m : Kmem)
      (hmap : mappages d s.km (pages (s.proc p).sz * PGSIZE) PGSIZE (s.shm g).pa (PTE_W ||| PTE_U) =
        .ok (false, d', m)) :
      ShmGot s p d name i (s.setVm p d' m)
  | joined (g : ShmIdx) (d' : Pgdir) (m : Kmem)
      (hg : s.findShm name (s.proc p).container_id = some g)
      (hmap : mappages d s.km (pages (s.proc p).sz * PGSIZE) PGSIZE (s.shm g).pa (PTE_W ||| PTE_U) =
        .ok (true, d', m)) :
      ShmGot s p d name i { (s.setProc p ((s.proc p).attached d' name i g)).setShm g
        ((s.shm g).joined (s.proc p).container_id) with km := m }
  | noPage (g : ShmIdx) (hg : s.findShm name (s.proc p).container_id = none)
      (hfree : s.freeShm = some g) (hpage : s.km.free = []) :
      ShmGot s p d name i (s.setShm g { s.shm g with in_use := true })
  | made (g : ShmIdx) (page : ℕ) (free : List ℕ) (d' : Pgdir) (m : Kmem)
      (hg : s.findShm name (s.proc p).container_id = none)
      (hfree : s.freeShm = some g) (hpage : s.km.free = page :: free) (hlen : strlen name ≤ 16)
      (hmap : mappages d (Kmem.zero { s.km with free := free } page) (pages (s.proc p).sz * PGSIZE)
        PGSIZE (page * PGSIZE) (PTE_W ||| PTE_U) = .ok (true, d', m)) :
      ShmGot s p d name i { (s.setProc p ((s.proc p).attached d' name i g)).setShm g
        (SharedMem.joined
          { s.shm g with
            in_use := true, name := strncpy (s.shm g).name name (strlen name), pa := page * PGSIZE }
          (s.proc p).container_id) with km := m }

theorem shmGet_cases (h : shmGet s p name = .ok (r, s')) (hi : s.freeShmem p = some i) :
    ∃ d, (s.proc p).pgdir = some d ∧ ShmGot s p d name i s' := by
  obtain ⟨d, hd, hout⟩ := shmGet_outcome h
  refine ⟨d, hd, ?_⟩
  cases hout with
  | refused => exact .refused
  | noTable g d' m _ _ hmap => exact .noTable g d' m hmap
  | joined g d' m _ _ _ hg hmap hend =>
    rw [hi] at hend
    rw [shmAttach_cases hend]
    exact .joined g d' m hg hmap
  | noPage g _ hg hfree hpage => exact .noPage g hg hfree hpage
  | made g page free d' m _ _ _ hg hfree hpage hlen hmap hend =>
    rw [hi] at hend
    have hmade := ShmGot.made (i := i) g page free d' m hg hfree hpage hlen hmap
    rw [shmAttach_cases hend]
    simpa [setShm, Kernel.setProc, SharedMem.made] using hmade

end Outcomes

end Dockv6
