import Dockv6.Kernel.Quiet

/-!
# What fork does

`fork_cases` takes a call of `fork` apart. The last part of `fork` changes the child's own entry,
the counts of what the child shares with its parent, the queue and memory contents, and nothing else
(`ForkRest`).
-/

namespace Dockv6

open Kernel Function

variable {s s' : Kernel} {p np : PIdx} {d : Pgdir}

/-! ## The charge -/

/-- The container of the caller, if it is in one, has been charged for a process. -/
inductive Charged (s : Kernel) (p : PIdx) : Kernel → Prop
  | outside (h : (s.proc p).container_id = 0) : Charged s p s
  | inside (c : CIdx) (h : (s.proc p).container_id ≠ 0) (hc : (s.proc p).container = some c)
      (hn : (s.containers c).nproc ≠ 0) :
      Charged s p (s.setContainer c { s.containers c with nproc := udec (s.containers c).nproc })

theorem forkCharge_cases {r : Option Kernel} (h : forkCharge s p = .ok r) :
    (r = none ∧ (s.proc p).container_id ≠ 0 ∧
      ∃ c, (s.proc p).container = some c ∧ (s.containers c).nproc = 0) ∨
    ∃ s1, r = some s1 ∧ Charged s p s1 := by
  unfold forkCharge at h
  split_ifs at h with hid
  · cases h
    exact .inr ⟨s, rfl, .outside hid⟩
  · split at h
    · cases h
    · rename_i c hc
      split_ifs at h with hn
      · cases h
        exact .inl ⟨rfl, hid, c, hc, hn⟩
      · cases h
        exact .inr ⟨_, rfl, .inside c hid hc hn⟩

-- A charge changes containers only.

theorem Charged.proc {s1 : Kernel} (h : Charged s p s1) : s1.proc = s.proc := by
  cases h <;> rfl

theorem Charged.nextpid {s1 : Kernel} (h : Charged s p s1) : s1.nextpid = s.nextpid := by
  cases h <;> rfl

theorem Charged.shm {s1 : Kernel} (h : Charged s p s1) : s1.shm = s.shm := by
  cases h <;> rfl

theorem Charged.km {s1 : Kernel} (h : Charged s p s1) : s1.km = s.km := by
  cases h <;> rfl

/-! ## The slot -/

/-- `np` is the slot that `allocproc` takes for a process of the given priority, and `q` and `mem`
are the queue with the process in it and the memory. -/
structure Taken (s : Kernel) (d : Pgdir) (prio : ℕ) (np : PIdx) (q : Pqueue) (mem : Mem) :
    Prop where
  unused : (s.proc np).state = .UNUSED
  first : ∀ q < np, (s.proc q).state ≠ .UNUSED
  enqueued : pqueueEnqueue s d (some np) prio = .ok { s with
      pq := q, km := { s.km with mem := mem } }

theorem allocproc_cases {prio : ℕ} {r : Option PIdx} (h : allocproc s d prio = .ok (r, s')) :
    (r = none ∧ s' = s ∧ ∀ q, s.live q) ∨
    ∃ np q mem, Taken s d prio np q mem ∧
      ((r = none ∧ s.km.free = [] ∧
        s' = { s with
          proc := update s.proc np
            { (s.proc np).embryo s.nextpid with kstack := none, state := .UNUSED }
          nextpid := s.nextpid + 1
          pq := q
          km := { s.km with mem := mem } }) ∨
        ∃ page free, r = some np ∧ s.km.free = page :: free ∧
        s' = { s with
          proc := update s.proc np { (s.proc np).embryo s.nextpid with kstack := some page }
          nextpid := s.nextpid + 1
          pq := q
          km := { s.km with free := free, mem := mem } }) := by
  unfold allocproc at h
  rw [← Fin.find?_eq_find?_finRange] at h
  split at h
  · rename_i hnone
    cases h
    refine .inl ⟨rfl, rfl, fun q => ?_⟩
    exact of_decide_eq_false (Fin.find?_eq_none_iff.mp hnone q)
  · rename_i np hfind
    obtain ⟨hunused, hfirst⟩ := Fin.find?_eq_some_iff.mp hfind
    obtain ⟨s1, henq, h⟩ := bind_eq_ok.mp h
    obtain ⟨q, mem, rfl⟩ := pqueueEnqueue_queueOnly henq
    have htaken : Taken s d prio np q mem :=
      ⟨of_decide_eq_true hunused, fun q hq => of_decide_eq_false (hfirst q hq), henq⟩
    refine .inr ⟨np, q, mem, htaken, ?_⟩
    dsimp only at h
    split at h
    · rename_i hk
      cases h
      have hfree := kalloc_eq_none hk
      refine .inl ⟨rfl, hfree, ?_⟩
      simp only [Kernel.setProc, update_idem]
    · rename_i page m hk
      cases h
      obtain ⟨hfree, hm⟩ := kalloc_eq_some hk
      refine .inr ⟨page, m.free, rfl, hfree, ?_⟩
      rw [hm]
      simp only [Kernel.setProc, update_idem]

/-! ## The child -/

/-- A process without the fields that the last part of `fork` fills in. -/
def Proc.core (x : Proc) : Proc :=
  { x with
    tf := { eax := 0, eip := 0, esp := 0 }
    ofile := fun _ => none
    cwd := none
    name := []
    shared_mem := fun _ => { in_use := false, name := [], va := 0, global_ptr := none } }

/-- A slot of `shm_list` without its count. -/
def SharedMem.core (x : SharedMem) : SharedMem := { x with refcount := 0 }

/-- What the last part of `fork` leaves as it is. -/
structure ForkRest (np : PIdx) (s s' : Kernel) : Prop where
  others : ∀ q, q ≠ np → s'.proc q = s.proc q
  core : (s'.proc np).core = (s.proc np).core
  mux : s'.mux = s.mux
  containers : s'.containers = s.containers
  initproc : s'.initproc = s.initproc
  nextpid : s'.nextpid = s.nextpid
  nextcid : s'.nextcid = s.nextcid
  shm : ∀ g, (s'.shm g).core = (s.shm g).core
  free : s'.km.free = s.km.free
  first : s'.km.first = s.km.first
  pipe : s'.pipe = s.pipe

namespace ForkRest

theorem refl (np : PIdx) (s : Kernel) : ForkRest np s s :=
  ⟨fun _ _ => rfl, rfl, rfl, rfl, rfl, rfl, rfl, fun _ => rfl, rfl, rfl, rfl⟩

theorem trans {s1 s2 s3 : Kernel} (h : ForkRest np s1 s2) (h' : ForkRest np s2 s3) :
    ForkRest np s1 s3 where
  others q hq := (h'.others q hq).trans (h.others q hq)
  core := h'.core.trans h.core
  mux := h'.mux.trans h.mux
  containers := h'.containers.trans h.containers
  initproc := h'.initproc.trans h.initproc
  nextpid := h'.nextpid.trans h.nextpid
  nextcid := h'.nextcid.trans h.nextcid
  shm g := (h'.shm g).trans (h.shm g)
  free := h'.free.trans h.free
  first := h'.first.trans h.first
  pipe := h'.pipe.trans h.pipe

theorem setProc {x : Proc} (hx : x.core = (s.proc np).core) : ForkRest np s (s.setProc np x) :=
  { refl np s with
    others := fun _ hq => setProc_of_ne s np x hq
    core := by rw [setProc_self, hx] }

theorem setMem (mem : Mem) : ForkRest np s (s.setMem mem) := { refl np s with }

theorem state (h : ForkRest np s s') (q : PIdx) : (s'.proc q).state = (s.proc q).state := by
  by_cases hq : q = np
  · have hcore : (s'.proc np).core.state = (s.proc np).core.state := congrArg Proc.state h.core
    rw [hq]
    exact hcore
  · rw [h.others q hq]

end ForkRest

/-- What `fork` leaves as it is after the loop over the shared pages: also the entries of the child
and the counts, and its descriptors if the parent has none. -/
structure ForkTail (p np : PIdx) (s s' : Kernel) : Prop extends ForkRest np s s' where
  shared_mem : (s'.proc np).shared_mem = (s.proc np).shared_mem
  ofile : (∀ fd, (s.proc p).ofile fd = none) → (s'.proc np).ofile = (s.proc np).ofile
  shmEq : s'.shm = s.shm

namespace ForkTail

theorem refl (p np : PIdx) (s : Kernel) : ForkTail p np s s :=
  { ForkRest.refl np s with shared_mem := rfl, ofile := fun _ => rfl, shmEq := rfl }

theorem trans {s1 s2 s3 : Kernel} (h : ForkTail p np s1 s2) (h' : ForkTail p np s2 s3) :
    ForkTail p np s1 s3 where
  toForkRest := h.toForkRest.trans h'.toForkRest
  shared_mem := h'.shared_mem.trans h.shared_mem
  ofile hp := by
    refine (h'.ofile fun fd => ?_).trans (h.ofile hp)
    by_cases hpn : p = np
    · subst hpn
      rw [h.ofile hp, hp]
    · rw [h.others p hpn, hp]
  shmEq := h'.shmEq.trans h.shmEq

theorem of_setProc {x : Proc} (h : ForkTail p np (s.setProc np x) s')
    (hx : x.core = (s.proc np).core) (hshm : x.shared_mem = (s.proc np).shared_mem)
    (hofile : x.ofile = (s.proc np).ofile) : ForkTail p np s s' := by
  refine ForkTail.trans ⟨.setProc hx, ?_, fun _ => ?_, rfl⟩ h
  · rw [setProc_self, hshm]
  · rw [setProc_self, hofile]

theorem setMem (mem : Mem) : ForkTail p np s (s.setMem mem) := { refl p np s with }

theorem of_queueOnly (h : QueueOnly s s') : ForkTail p np s s' := by
  obtain ⟨q, mem, rfl⟩ := h
  exact { refl p np s with }

end ForkTail

theorem forkShmem_rest {i : ShmIdx} (h : forkShmem p np d s i = .ok s') : ForkRest np s s' := by
  unfold forkShmem at h
  dsimp only at h
  have hset : ∀ e, ForkRest np s (s.setShmem np i e) := fun e => .setProc rfl
  split at h
  · rename_i g hg
    cases h
    refine (hset _).trans { ForkRest.refl np _ with shm := fun g' => ?_ }
    rw [setShm_shm]
    split_ifs with hgg
    · rw [hgg]
      rfl
    · rfl
  · obtain ⟨mem, -, h⟩ := bind_eq_ok.mp h
    cases h
    exact (hset _).trans (.setMem mem)

theorem forkShmRounds_rest {is : List ShmIdx} (h : forkShmRounds p np d is s = .ok s') :
    ForkRest np s s' := by
  induction is generalizing s with
  | nil =>
    cases h
    exact .refl np _
  | cons i is ih =>
    obtain ⟨s1, h1, h⟩ := bind_eq_ok.mp h
    exact (forkShmem_rest h1).trans (ih h)

theorem forkShm_rest (h : forkShm s p np d = .ok s') : ForkRest np s s' := by
  unfold forkShm at h
  split_ifs at h
  · cases h
    exact .refl np s
  · exact forkShmRounds_rest h

theorem filedup_eq_ok {f : FIdx} (h : filedup s f = .ok s') :
    ∃ file, s' = { s with file := file } := by
  unfold filedup at h
  split_ifs at h
  exact ⟨_, (Except.ok.inj h).symm⟩

/-- Only open files and the descriptors of the child change. -/
theorem dupFiles_eq_ok {fds : List (Fin NOFILE)} (h : dupFiles p np fds s = .ok s') :
    ∃ file ofile, s' = { s.setProc np { s.proc np with ofile := ofile } with file := file } := by
  induction fds generalizing s with
  | nil =>
    cases h
    exact ⟨s'.file, (s'.proc np).ofile, by simp [setProc]⟩
  | cons fd fds ih =>
    rw [dupFiles] at h
    split at h
    · exact ih h
    · obtain ⟨s1, hdup, h⟩ := bind_eq_ok.mp h
      obtain ⟨file, rfl⟩ := filedup_eq_ok hdup
      obtain ⟨file', ofile, rfl⟩ := ih h
      exact ⟨file', ofile, by simp [setProc]⟩

theorem dupFiles_tail {fds : List (Fin NOFILE)} (h : dupFiles p np fds s = .ok s') :
    ForkTail p np s s' := by
  induction fds generalizing s with
  | nil =>
    cases h
    exact .refl p np _
  | cons fd fds ih =>
    rw [dupFiles] at h
    split at h
    · exact ih h
    · rename_i f hf
      obtain ⟨s1, hdup, h⟩ := bind_eq_ok.mp h
      obtain ⟨file, rfl⟩ := filedup_eq_ok hdup
      have h1 : ForkTail p np s { s with file := file } := { ForkTail.refl p np s with }
      refine h1.trans (ForkTail.trans ⟨.setProc ?_, ?_, fun hnone => ?_, rfl⟩ (ih h))
      · rfl
      · rw [setProc_self]
      · cases hf.symm.trans (hnone fd)

theorem idupPtr_tail {ip : Option Slot} (h : idupPtr s d ip = .ok s') : ForkTail p np s s' := by
  unfold idupPtr at h
  split at h
  · cases h
    exact { ForkTail.refl p np s with }
  · obtain ⟨mem, -, h⟩ := bind_eq_ok.mp h
    cases h
    exact .setMem mem

theorem forkPrio_queueOnly (h : forkPrio s p np d = .ok s') : QueueOnly s s' := by
  obtain ⟨⟨r1, s1⟩, h1, h⟩ := bind_eq_ok.mp h
  obtain ⟨⟨r2, s2⟩, h2, h⟩ := bind_eq_ok.mp h
  cases h
  refine QueueOnly.trans ?_ (prioSet_queueOnly h2)
  unfold forkPrioBelow at h1
  split_ifs at h1
  · exact prioSet_queueOnly h1
  · cases h1
    exact .refl s

/-- The entry of the child when `fork` starts to fill it in. -/
def Proc.child (y x : Proc) (p : PIdx) : Proc :=
  { y with sz := x.sz, parent := some p, tf := x.tf, container := x.container,
           container_id := x.container_id }

theorem forkShmRounds_pq {is : List ShmIdx} (h : forkShmRounds p np d is s = .ok s') :
    s'.pq = s.pq := by
  induction is generalizing s with
  | nil =>
    cases h
    rfl
  | cons i is ih =>
    obtain ⟨s1, h1, h⟩ := bind_eq_ok.mp h
    refine (ih h).trans ?_
    unfold forkShmem at h1
    dsimp only at h1
    split at h1
    · cases h1
      rfl
    · obtain ⟨mem, -, h1⟩ := bind_eq_ok.mp h1
      cases h1
      rfl

theorem forkShm_pq (h : forkShm s p np d = .ok s') : s'.pq = s.pq := by
  unfold forkShm at h
  split_ifs at h
  · cases h
    rfl
  · exact forkShmRounds_pq h

/-- The calls of `forkChild`. -/
theorem forkChild_eq_ok (h : forkChild s p np d = .ok s') :
    ∃ s1 s2 s3 name s4, forkShm (s.setProc np ((s.proc np).child (s.proc p) p)) p np d = .ok s1 ∧
      dupFiles p np (List.finRange NOFILE)
        (s1.setProc np { s1.proc np with tf := { (s.proc p).tf with eax := 0 } }) = .ok s2 ∧
      idupPtr s2 d (s.proc p).cwd = .ok s3 ∧
      let s3 := s3.setProc np { s3.proc np with cwd := (s.proc p).cwd }
      forkName s3 p np d = .ok name ∧
      forkPrio (s3.setProc np { s3.proc np with name := name }) p np d = .ok s4 ∧
      s' = s4.setProc np { s4.proc np with state := .RUNNABLE } := by
  obtain ⟨s1, hshm, h⟩ := bind_eq_ok.mp h
  obtain ⟨s2, hfiles, h⟩ := bind_eq_ok.mp h
  obtain ⟨s3, hcwd, h⟩ := bind_eq_ok.mp h
  obtain ⟨name, hname, h⟩ := bind_eq_ok.mp h
  obtain ⟨s4, hprio, h⟩ := bind_eq_ok.mp h
  exact ⟨s1, s2, s3, name, s4, hshm, hfiles, hcwd, hname, hprio, (Except.ok.inj h).symm⟩

/-- The parts of `forkChild`: the shared pages, then the files and the name, then the priority. The
queue changes in the last one only. -/
theorem forkChild_parts (h : forkChild s p np d = .ok s') :
    ∃ s1 s2 s3, forkShm (s.setProc np ((s.proc np).child (s.proc p) p)) p np d = .ok s1 ∧
      ForkTail p np s1 s2 ∧ s2.pq = s.pq ∧ forkPrio s2 p np d = .ok s3 ∧
      s' = s3.setProc np { s3.proc np with state := .RUNNABLE } := by
  obtain ⟨s1, s2, s3, name, s4, hshm, hfiles, hcwd, -, hprio, rfl⟩ := forkChild_eq_ok h
  refine ⟨s1, _, s4, hshm, ?_, ?_, hprio, rfl⟩
  · -- Each call changes only what `ForkTail` allows, and so does each assignment between them.
    have h2 := (dupFiles_tail hfiles).of_setProc rfl rfl rfl
    have h3 := h2.trans (idupPtr_tail hcwd)
    refine h3.trans (.of_setProc (.of_setProc (.refl p np _) ?_ ?_ ?_) ?_ ?_ ?_) <;> rfl
  · have h1 := forkShm_pq hshm
    have h2 : s2.pq = s1.pq := by
      obtain ⟨file, ofile, rfl⟩ := dupFiles_eq_ok hfiles
      rfl
    have h3 : s3.pq = s2.pq := (idupPtr_quiet hcwd).pq
    exact h3.trans (h2.trans h1)

theorem forkChild_cases (h : forkChild s p np d = .ok s') :
    ∃ s1 s2, forkShm (s.setProc np ((s.proc np).child (s.proc p) p)) p np d = .ok s1 ∧
      ForkTail p np s1 s2 ∧ s' = s2.setProc np { s2.proc np with state := .RUNNABLE } := by
  obtain ⟨s1, s2, s3, hshm, htail, -, hprio, hs⟩ := forkChild_parts h
  exact ⟨s1, s3, hshm, htail.trans (.of_queueOnly (forkPrio_queueOnly hprio)), hs⟩

/-! ## The whole call -/

/-- The state of `fork` from `s` with the slot `np` and a kernel stack in `page`. -/
def Kernel.stacked (s : Kernel) (np : PIdx) (page : ℕ) (free : List ℕ) (q : Pqueue) (mem : Mem) :
    Kernel :=
  { s with
    proc := update s.proc np { (s.proc np).embryo s.nextpid with kstack := some page }
    nextpid := s.nextpid + 1
    pq := q
    km := { s.km with free := free, mem := mem } }

/-- A `fork` that fails after the charge: there is no slot, no page for the kernel stack, or not
enough memory for the copy. The slot it tried is unused as before. -/
inductive ForkFailed (s : Kernel) (p : PIdx) (d : Pgdir) : Kernel → Prop
  | noSlot (h : ∀ q, s.live q) : ForkFailed s p d s
  | noStack (np : PIdx) (q : Pqueue) (mem : Mem) (hnp : Taken s d (s.pq.priority p) np q mem)
      (hfree : s.km.free = []) :
      ForkFailed s p d
        { s with
          proc := update s.proc np
            { (s.proc np).embryo s.nextpid with kstack := none, state := .UNUSED }
          nextpid := s.nextpid + 1
          pq := q
          km := { s.km with mem := mem } }
  | noCopy (np : PIdx) (page : ℕ) (free : List ℕ) (q : Pqueue) (mem : Mem) (m m' : Kmem)
      (hnp : Taken s d (s.pq.priority p) np q mem) (hfree : s.km.free = page :: free)
      (hcopy : copyuvm (s.stacked np page free q mem) p d
        ((s.stacked np page free q mem).proc p).sz = .ok (none, m))
      (hkfree : kfree m page = .ok m') :
      ForkFailed s p d
        { s with
          proc := update s.proc np
            { (s.proc np).embryo s.nextpid with kstack := none, pgdir := none, state := .UNUSED }
          nextpid := s.nextpid + 1
          pq := q
          km := m' }

/-- In short, a slot that was unused is unused again. -/
theorem ForkFailed.unused {s1 : Kernel} (h : ForkFailed s1 p d s') :
    s' = s1 ∨ ∃ np x q m, (s1.proc np).state = .UNUSED ∧ x.state = .UNUSED ∧
      x.ofile = (s1.proc np).ofile ∧
      s' = { s1 with
        proc := update s1.proc np x, nextpid := s1.nextpid + 1, pq := q, km := m } := by
  cases h with
  | noSlot => exact .inl rfl
  | noStack np q mem hnp =>
    let x : Proc := { (s1.proc np).embryo s1.nextpid with kstack := none, state := .UNUSED }
    exact .inr ⟨np, x, q, _, hnp.unused, rfl, rfl, rfl⟩
  | noCopy np page free q mem m m' hnp =>
    let x : Proc :=
      { (s1.proc np).embryo s1.nextpid with kstack := none, pgdir := none, state := .UNUSED }
    exact .inr ⟨np, x, q, m', hnp.unused, rfl, rfl, rfl⟩

/-- The slot `np` of a `fork` that has got its page table `d'` and its kernel stack. -/
def Proc.forked (x : Proc) (pid page : ℕ) (d' : Pgdir) : Proc :=
  { x.embryo pid with kstack := some page, pgdir := some d' }

/-- A `fork` that succeeds, from the state `s1` after the charge: the slot and the pages it takes,
and the state before the child is filled in. -/
structure ForkOk (s1 : Kernel) (p np : PIdx) (d : Pgdir) (s' : Kernel) : Prop where
  unused : (s1.proc np).state = .UNUSED
  steps : ∃ page free q mem d' m, Taken s1 d (s1.pq.priority p) np q mem ∧ s1.km.free = page ::
    free ∧ copyuvm (s1.stacked np page free q mem) p d ((s1.stacked np page free q mem).proc p).sz =
      .ok (some d', m) ∧
    forkChild
      { s1 with
        proc := update s1.proc np ((s1.proc np).forked s1.nextpid page d')
        nextpid := s1.nextpid + 1
        pq := q
        km := m } p np d = .ok s'

/-- **The outcomes of `fork`.** The limit of the container is reached and nothing happens; or the
container is charged, and then `fork` fails or there is a child. -/
theorem fork_cases {r : Int} (h : fork s p = .ok (r, s')) :
    ∃ d, (s.proc p).pgdir = some d ∧
      ((r = -1 ∧ s' = s ∧ (s.proc p).container_id ≠ 0 ∧
          ∃ c, (s.proc p).container = some c ∧ (s.containers c).nproc = 0) ∨
        ∃ s1, Charged s p s1 ∧
          ((r = -1 ∧ ForkFailed s1 p d s') ∨ ∃ np, r = (s'.proc np).pid ∧ ForkOk s1 p np d s'))
          := by
  unfold fork at h
  split at h
  · cases h
  rename_i d hd
  refine ⟨d, hd, ?_⟩
  obtain ⟨charged, hcharge, hrest⟩ := bind_eq_ok.mp h
  obtain ⟨rfl, hid, c, hc, hn⟩ | ⟨s1, rfl, hs1⟩ := forkCharge_cases hcharge
  · cases hrest
    exact .inl ⟨rfl, rfl, hid, c, hc, hn⟩
  refine .inr ⟨s1, hs1, ?_⟩
  obtain ⟨⟨slot, s2⟩, halloc, hslot⟩ := bind_eq_ok.mp hrest
  obtain ⟨rfl, rfl, hlive⟩ | ⟨np, q, mem, htaken,
      ⟨rfl, hfree, rfl⟩ | ⟨page, free, rfl, hfree, rfl⟩⟩ :=
    allocproc_cases halloc
  · cases hslot
    exact .inl ⟨rfl, .noSlot hlive⟩
  · cases hslot
    exact .inl ⟨rfl, .noStack np q mem htaken hfree⟩
  · obtain ⟨⟨d', m⟩, hcopy, hchild⟩ := bind_eq_ok.mp hslot
    rcases d' with _ | d'
    · dsimp only at hchild
      split at hchild
      · cases hchild
      · rename_i page' hpage'
        obtain ⟨m', hkfree, hlast⟩ := bind_eq_ok.mp hchild
        cases hlast
        obtain rfl : page = page' := by simpa [Kernel.setProc] using hpage'
        have hfailed := ForkFailed.noCopy (p := p) (d := d) np page free q mem m m' htaken hfree
          hcopy hkfree
        refine .inl ⟨rfl, ?_⟩
        simp only [Kernel.setProc, update_idem, update_self]
        exact hfailed
    · obtain ⟨s3, hfill, hlast⟩ := bind_eq_ok.mp hchild
      cases hlast
      refine .inr ⟨np, rfl, htaken.unused, page, free, q, mem, d', m, htaken, hfree, hcopy, ?_⟩
      simp only [Kernel.setProc, update_idem, update_self] at hfill
      exact hfill

/-- The identity of a new child. -/
def Proc.childIdent (x : Proc) (p : PIdx) (pid : ℕ) : Ident :=
  { state := .RUNNABLE, pid := pid, parent := some p, container := x.container,
    container_id := x.container_id, mutex := fun _ => none }

/-- What a `fork` with a child does to what others know of the processes. -/
structure ForkMade (s1 : Kernel) (p np : PIdx) (s' : Kernel) : Prop where
  unused : (s1.proc np).state = .UNUSED
  others : ∀ q, q ≠ np → s'.proc q = s1.proc q
  child : (s'.proc np).ident = (s1.proc p).childIdent p s1.nextpid
  mux : s'.mux = s1.mux
  containers : s'.containers = s1.containers
  initproc : s'.initproc = s1.initproc
  nextpid : s'.nextpid = s1.nextpid + 1
  nextcid : s'.nextcid = s1.nextcid

theorem Proc.ident_of_core {x y : Proc} (h : x.core = y.core) : x.ident = y.ident :=
  show x.core.ident = y.core.ident from congrArg Proc.ident h

theorem ForkOk.made {s1 : Kernel} (h : ForkOk s1 p np d s') (hp : s1.live p) :
    ForkMade s1 p np s' := by
  obtain ⟨hunused, page, free, q, mem, d', m, -, -, -, hchild⟩ := h
  obtain ⟨s1', s2, hshm, htail, rfl⟩ := forkChild_cases hchild
  have hrest := (forkShm_rest hshm).trans htail.toForkRest
  have hne : p ≠ np := fun heq => hp (heq ▸ hunused)
  have hself := Proc.ident_of_core hrest.core
  simp only [setProc_self, update_self, update_of_ne hne] at hself
  refine ⟨hunused, fun q hq => ?_, ?_, hrest.mux, hrest.containers, hrest.initproc, hrest.nextpid,
    hrest.nextcid⟩
  · rw [setProc_of_ne _ _ _ hq, hrest.others q hq, setProc_of_ne _ _ _ hq]
    exact update_of_ne hq _ _
  · rw [setProc_self]
    exact congrArg (fun i : Ident => { i with state := .RUNNABLE }) hself

/-! ## The memory of the child -/

theorem forkShmem_va {i : ShmIdx} (h : forkShmem p np d s i = .ok s') (j : ShmIdx) :
    ((s'.proc np).shared_mem j).va =
      if j = i then ((s.proc p).shared_mem i).va else ((s.proc np).shared_mem j).va := by
  have hset : ∀ e : Shmem, e.va = ((s.proc p).shared_mem i).va →
      (((s.setShmem np i e).proc np).shared_mem j).va =
        if j = i then ((s.proc p).shared_mem i).va else ((s.proc np).shared_mem j).va := by
    intro e he
    rw [setShmem, setProc_self]
    dsimp only
    rw [update_apply]
    split_ifs
    · exact he
    · rfl
  unfold forkShmem at h
  dsimp only at h
  split at h
  · cases h
    exact hset _ rfl
  · obtain ⟨mem, -, h⟩ := bind_eq_ok.mp h
    cases h
    exact hset _ rfl

theorem forkShmRounds_va {is : List ShmIdx} (h : forkShmRounds p np d is s = .ok s') (hne : p ≠ np)
    (j : ShmIdx) : ((s'.proc np).shared_mem j).va =
      if j ∈ is then ((s.proc p).shared_mem j).va else ((s.proc np).shared_mem j).va := by
  induction is generalizing s with
  | nil =>
    cases h
    exact (if_neg (List.not_mem_nil)).symm
  | cons i is ih =>
    obtain ⟨s1, hround, hrest⟩ := bind_eq_ok.mp h
    rw [ih hrest, (forkShmem_rest hround).others p hne, forkShmem_va hround]
    by_cases hji : j = i
    · subst hji
      simp
    · simp [hji]

theorem forkShm_va (h : forkShm s p np d = .ok s') (hne : p ≠ np)
    (hcm : isCm (s.proc p).name = false)
    (j : ShmIdx) : ((s'.proc np).shared_mem j).va = ((s.proc p).shared_mem j).va := by
  unfold forkShm at h
  split_ifs at h with hcm'
  · cases hcm.symm.trans hcm'
  · rw [forkShmRounds_va h hne, if_pos (List.mem_finRange j)]

/-- What a `fork` with a child does to memory: the child has a stack in the first free page and a
copy of the address space, and the addresses of its shared pages are those of its parent. -/
theorem ForkOk.memory {s1 : Kernel} (h : ForkOk s1 p np d s') (hp : s1.live p) :
    ∃ page free q mem d' m, s1.km.free = page :: free ∧
      copyuvm (s1.stacked np page free q mem) p d (s1.proc p).sz = .ok (some d', m) ∧
      (s'.proc np).kstack = some page ∧ (s'.proc np).pgdir = some d' ∧
      (s'.proc np).sz = (s1.proc p).sz ∧ s'.km.free = m.free ∧
      (∀ g, (s'.shm g).pa = (s1.shm g).pa) ∧ (isCm (s1.proc p).name = false →
        ∀ i, ((s'.proc np).shared_mem i).va = ((s1.proc p).shared_mem i).va) := by
  obtain ⟨hunused, page, free, q, mem, d', m, -, hfree, hcopy, hchild⟩ := h
  obtain ⟨s2, s3, hshm, htail, rfl⟩ := forkChild_cases hchild
  have hne : p ≠ np := fun heq => hp (heq ▸ hunused)
  have hrest := (forkShm_rest hshm).trans htail.toForkRest
  have hcore := hrest.core
  simp only [setProc_self, update_self, update_of_ne hne] at hcore
  refine ⟨page, free, q, mem, d', m, hfree, ?_, ?_, ?_, ?_, hrest.free, fun g => ?_,
    fun hcm i => ?_⟩
  · have hsz : ((s1.stacked np page free q mem).proc p).sz = (s1.proc p).sz :=
      congrArg Proc.sz (update_of_ne hne ..)
    rw [← hsz]
    exact hcopy
  · rw [setProc_self]
    exact congrArg Proc.kstack hcore
  · rw [setProc_self]
    exact congrArg Proc.pgdir hcore
  · rw [setProc_self]
    have hsz : (s3.proc np).core.sz = _ := congrArg Proc.sz hcore
    exact hsz
  · have hpa : (s3.shm g).core.pa = _ := congrArg SharedMem.pa (hrest.shm g)
    exact hpa
  · let s0 : Kernel := { s1 with
      proc := update s1.proc np ((s1.proc np).forked s1.nextpid page d')
      nextpid := s1.nextpid + 1, pq := q, km := m }
    have hparent : ∀ z, (s0.setProc np z).proc p = s1.proc p := fun z =>
      (setProc_of_ne s0 np z hne).trans (update_of_ne hne _ s1.proc)
    have hva := forkShm_va hshm hne
      ((congrArg (fun x : Proc => isCm x.name) (hparent _)).trans hcm) i
    have hchild := congrArg (fun f : ShmIdx → Shmem => (f i).va) htail.shared_mem
    rw [setProc_self]
    exact hchild.trans (hva.trans (congrArg (fun x : Proc => (x.shared_mem i).va) (hparent _)))

end Dockv6
