import Dockv6.Priority.Acyclic
import Dockv6.Vm.Copy
import Dockv6.Vm.Null

/-!
# What a child inherits

A `fork` that succeeds copies the entries for shared pages and counts them, also entries that are
not in use, through pointers that are null or out of date. Null pointers lead to the memory of the
parent, and so they do in the queue, when a bin has lost its tail or the child cannot be found.
-/

namespace Dockv6

open Kernel Function

variable {s s' : Kernel} {p np : PIdx} {d : Pgdir}

/-! ## The queue -/

theorem pqueueEnqueue_writes {n : ℕ} (h : pqueueEnqueue s d (some np) n = .ok s') :
    NullWrites d s.km.mem s'.km.mem 0 none
      (if s.pq.noTail n then some (s.procAddr (some np) % 2 ^ 32) else none) := by
  obtain ⟨s1, h1, h⟩ := bind_eq_ok.mp h
  cases h1
  split_ifs at h with hn
  dsimp only [setPq] at h
  unfold Pqueue.noTail
  cases hhead : (s.pq.bin n).head with
  | none =>
    rw [hhead] at h
    cases h
    exact .refl d _
  | some r =>
    rw [hhead] at h
    dsimp only at h
    obtain ⟨s2, h2, h⟩ := bind_eq_ok.mp h
    cases h
    cases htail : (s.pq.bin n).tail with
    | none =>
      rw [htail] at h2
      obtain ⟨mem, hmem, h2⟩ := bind_eq_ok.mp h2
      cases h2
      exact .setNext hmem
    | some t =>
      rw [htail] at h2
      cases h2
      exact .refl d _

theorem setNext_none_writes {o : Option PIdx} (h : s.setNext d o none = .ok s') :
    NullWrites d s.km.mem s'.km.mem 0 none (if o = none then some 0 else none) := by
  cases o with
  | some t =>
    cases h
    exact .refl d _
  | none =>
    obtain ⟨mem, hmem, h⟩ := bind_eq_ok.mp h
    cases h
    exact .setNext hmem

/-- When nothing is found, `prio_set` works on a null process. -/
theorem pqueueEnqueue_null_writes {n : ℕ} (h : pqueueEnqueue s d none n = .ok s') :
    NullWrites d s.km.mem s'.km.mem 0 (some (n % 2 ^ 32)) (some 0) := by
  obtain ⟨s1, h1, h⟩ := bind_eq_ok.mp h
  obtain ⟨mem, hmem, h1⟩ := bind_eq_ok.mp h1
  cases h1
  split_ifs at h
  have hprio : NullWrites d s.km.mem mem 0 (some (n % 2 ^ 32)) none := .setPriority hmem
  dsimp only at h
  split at h
  · have hlast : NullWrites d mem s'.km.mem 0 none (some 0) := setNext_none_writes h
    exact hprio.trans hlast
  · obtain ⟨s2, h2, h⟩ := bind_eq_ok.mp h
    have hlink := setNext_none_writes h2
    have hlast : NullWrites d s2.km.mem s'.km.mem 0 none (some 0) := setNext_none_writes h
    exact (hprio.trans hlink).trans hlast

/-- `prio_set` gets to the search. -/
theorem prioSet_search {pid priority r : Int} (hfind : s.withPid pid = some np)
    (hlow : s.pq.priority np < touint priority) (hmine : mayPrioSet s p pid np = .ok true)
    (h : prioSet s p d pid priority = .ok (r, s')) :
    ∃ found s1, unlinkBins pid (List.range NBIN) s none = .ok (found, s1) ∧
      pqueueEnqueue s1 d found (touint priority) = .ok s' := by
  unfold prioSet prioSetWith at h
  unfold withPid at hfind
  rw [hfind] at h
  dsimp only at h
  rw [if_neg (by omega), hmine] at h
  obtain ⟨mine, hm, h⟩ := bind_eq_ok.mp h
  cases hm
  rw [if_neg (by decide), if_neg (by omega)] at h
  obtain ⟨⟨found, s1⟩, hfound, h⟩ := bind_eq_ok.mp h
  obtain ⟨s2, henq, h⟩ := bind_eq_ok.mp h
  cases h
  exact ⟨found, s1, hfound, henq⟩

theorem prioSet_fieldsOnly {pid priority r : Int} (h : prioSet s p d pid priority = .ok (r, s')) :
    FieldsOnly d s.km.mem s'.km.mem := by
  obtain rfl | ⟨x, found, s1, -, -, -, hfound, henq⟩ := prioSet_cases h
  · exact .refl d _
  · obtain ⟨nx, rfl⟩ := unlinkBins_linksOnly hfound
    cases found with
    | none => exact (pqueueEnqueue_null_writes henq).only
    | some q => exact (pqueueEnqueue_writes henq).only

theorem forkPrio_fieldsOnly (h : forkPrio s p np d = .ok s') : FieldsOnly d s.km.mem s'.km.mem := by
  obtain ⟨⟨r1, s1⟩, h1, h⟩ := bind_eq_ok.mp h
  obtain ⟨⟨r2, s2⟩, h2, h⟩ := bind_eq_ok.mp h
  cases h
  refine FieldsOnly.trans ?_ (prioSet_fieldsOnly h2)
  unfold forkPrioBelow at h1
  split_ifs at h1
  · exact prioSet_fieldsOnly h1
  · cases h1
    exact .refl d _

/-- Is a child with this name moved from the bin of priority 0 to that of priority 1? -/
def Kernel.lowers (s : Kernel) (p : PIdx) (name : Bytes) : Prop :=
  1 < (s.proc p).pid ∧ isCm name = false ∧ s.pq.priority p = 0

/-- The outcomes of the calls of `prio_set` for a child at the address `addr`: it stays in its bin,
it is moved, or it cannot be found. -/
inductive Lowered (q : Pqueue) (np : PIdx) (lowers : Prop) (addr : ℕ) (d : Pgdir) (mem mem' : Mem) :
    Prop
  | stays (h : ¬ lowers) (writes : NullWrites d mem mem' 0 none none)
  | moved (h : lowers) (found : q.Reaches np)
      (writes : NullWrites d mem mem' 0 none (if q.noTail 1 then some (addr % 2 ^ 32) else none))
  | lost (h : lowers) (found : ¬ q.Reaches np) (writes : NullWrites d mem mem' 0 (some 1) (some 0))

section Prio

variable (hne : p ≠ np) (hsame : s.pq.priority np = s.pq.priority p)
  (hpid : ∀ q, (s.proc q).pid = (s.proc np).pid → q = np) (hparent : (s.proc np).parent = some p)

include hparent in
theorem mayPrioSet_child : mayPrioSet s p (s.proc np).pid np = .ok true := by
  unfold mayPrioSet
  split_ifs
  · rfl
  · rw [isAncestor, if_pos hparent]

include hpid

theorem withPid_child : s.withPid (s.proc np).pid = some np := by
  cases hfind : s.withPid (s.proc np).pid with
  | none => exact absurd (List.find?_eq_none.mp hfind np (List.mem_finRange np)) (by simp)
  | some q => rw [hpid q (by exact_mod_cast withPid_eq_some hfind)]

include hne hsame hparent

theorem forkPrio_writes (h : forkPrio s p np d = .ok s') :
    Lowered s.pq np (s.lowers p (s.proc np).name) (s.procAddr (some np)) d s.km.mem s'.km.mem := by
  obtain ⟨⟨r1, s1⟩, h1, h⟩ := bind_eq_ok.mp h
  obtain ⟨⟨r2, s2⟩, h2, h⟩ := bind_eq_ok.mp h
  cases h
  -- The second call asks for a priority that the child has or is past.
  have hlater : QueueOnly s s1 → s.pq.priority p ≤ s1.pq.priority np →
      s1.pq.priority p = s.pq.priority p → s' = s1 := by
    rintro ⟨q, mem, rfl⟩ hge hp
    obtain rfl | ⟨x, found, s3, hx, hlt, -, -, -⟩ := prioSet_cases h2
    · rfl
    · obtain rfl := hpid x (by exact_mod_cast withPid_eq_some hx)
      dsimp only at hge hp hlt
      unfold touint at hlt
      omega
  unfold forkPrioBelow at h1
  by_cases hbelow : 1 < (s.proc p).pid ∧ isCm (s.proc np).name = false
  · rw [if_pos hbelow] at h1
    have hq := prioSet_queueOnly h1
    by_cases hzero : s.pq.priority p = 0
    · have hlowers : s.lowers p (s.proc np).name := ⟨hbelow.1, hbelow.2, hzero⟩
      obtain ⟨found, s3, hfound, henq⟩ := prioSet_search (withPid_child hpid)
        (by rw [hsame, hzero]; decide)
        (mayPrioSet_child hparent) h1
      obtain ⟨nx, rfl⟩ := unlinkBins_linksOnly hfound
      obtain ⟨rfl, hreach⟩ | ⟨rfl, hreach⟩ := unlinkBins_target hpid hfound
      · have hpq := (pqueueEnqueue_some henq).2
        rw [hlater hq (by rw [hzero]; exact Nat.zero_le _)]
        · have hwrites := pqueueEnqueue_writes henq
          exact .moved hlowers hreach hwrites
        · rw [hpq]
          exact update_of_ne hne _ _
      · have hpq := pqueueEnqueue_none henq
        rw [hlater hq (by rw [hzero]; exact Nat.zero_le _)]
        · exact .lost hlowers hreach (pqueueEnqueue_null_writes henq)
        · rw [hpq]
          rfl
    · obtain rfl | ⟨x, found, s3, hx, hlt, -, -, -⟩ := prioSet_cases h1
      · rw [hlater hq hsame.ge rfl]
        exact .stays (fun hl => hzero hl.2.2) (.refl d _)
      · obtain rfl := hpid x (by exact_mod_cast withPid_eq_some hx)
        have hone : touint 1 = 1 := rfl
        omega
  · rw [if_neg hbelow] at h1
    cases h1
    rw [hlater (.refl s) hsame.ge rfl]
    exact .stays (fun hl => hbelow ⟨hl.1, hl.2.1⟩) (.refl d _)

end Prio

/-! ## The shared pages -/

/-- The entry that `fork` makes from that of the parent, in a slot that has been used before. -/
def Kernel.copiedShmem (s : Kernel) (p np : PIdx) (i : ShmIdx) : Shmem :=
  { (s.proc p).shared_mem i with
    name := strncpy ((s.proc np).shared_mem i).name ((s.proc p).shared_mem i).name
      (strlen ((s.proc p).shared_mem i).name) }

/-- The entries `is` have been copied, and what each of them points to has been counted. -/
structure SharedCopied (p np : PIdx) (d : Pgdir) (is : List ShmIdx) (s s' : Kernel) : Prop where
  entry : ∀ j, (s'.proc np).shared_mem j = if j ∈ is then s.copiedShmem p np j
    else (s.proc np).shared_mem j
  shm : ∀ g, s'.shm g = { s.shm g with
    refcount := uinc^[is.countP fun i => ((s.proc p).shared_mem i).global_ptr = some g]
      (s.shm g).refcount }
  writes : NullWrites d s.km.mem s'.km.mem
    (is.countP fun i => ((s.proc p).shared_mem i).global_ptr = none) none none
  name : (s'.proc np).name = (s.proc np).name
  addr : s'.ptableAddr = s.ptableAddr

theorem forkShmem_copied {i : ShmIdx} (h : forkShmem p np d s i = .ok s') :
    SharedCopied p np d [i] s s' := by
  have hentry : ∀ j, ((s.setShmem np i (s.copiedShmem p np i)).proc np).shared_mem j =
      if j ∈ [i] then s.copiedShmem p np j else (s.proc np).shared_mem j := by
    intro j
    rw [setShmem, setProc_self]
    by_cases hj : j = i
    · rw [if_pos (List.mem_singleton.mpr hj), hj]
      exact update_self ..
    · rw [if_neg (mt List.mem_singleton.mp hj)]
      exact update_of_ne hj ..
  have hname : ((s.setShmem np i (s.copiedShmem p np i)).proc np).name = (s.proc np).name := by
    rw [setShmem, setProc_self]
  unfold forkShmem at h
  dsimp only at h
  split at h
  · rename_i g hg
    cases h
    refine ⟨hentry, fun g' => ?_, ?_, hname, rfl⟩
    · rw [setShm_shm, List.countP_singleton, hg]
      split_ifs with h1 h2 h2
      · rw [h1]
        rfl
      · exact absurd (congrArg some h1.symm) (by simpa using h2)
      · exact absurd (Option.some.inj (of_decide_eq_true h2)).symm h1
      · rfl
    · rw [List.countP_singleton, hg]
      exact .refl d _
  · rename_i hg
    obtain ⟨mem, hmem, h⟩ := bind_eq_ok.mp h
    cases h
    refine ⟨hentry, fun g' => ?_, ?_, hname, rfl⟩
    · rw [List.countP_singleton, hg]
      rfl
    · rw [List.countP_singleton, hg]
      exact .incCount hmem

theorem SharedCopied.cons {s1 : Kernel} {i : ShmIdx} {is : List ShmIdx}
    (h : SharedCopied p np d [i] s s1) (h' : SharedCopied p np d is s1 s') (hi : i ∉ is)
    (hp : s1.proc p = s.proc p) : SharedCopied p np d (i :: is) s s' where
  entry j := by
    rw [h'.entry j, h.entry j]
    by_cases hj : j ∈ is
    · have hji : j ≠ i := fun heq => hi (heq ▸ hj)
      have hold := h.entry j
      rw [if_neg (by simpa using hji)] at hold
      rw [if_pos hj, if_pos (List.mem_cons_of_mem i hj), copiedShmem, copiedShmem, hp, hold]
    · rw [if_neg hj]
      simp only [List.mem_cons, hj, List.not_mem_nil]
  shm g := by
    rw [h'.shm g, h.shm g, hp]
    simp only [List.countP_cons, List.countP_nil, Nat.zero_add, iterate_add_apply]
  writes := by
    have hwrites := h.writes.trans h'.writes
    rw [hp, List.countP_singleton, Nat.add_comm] at hwrites
    rw [List.countP_cons]
    exact hwrites
  name := h'.name.trans h.name
  addr := h'.addr.trans h.addr

theorem forkShmRounds_copied {is : List ShmIdx} (h : forkShmRounds p np d is s = .ok s')
    (his : is.Nodup) (hne : p ≠ np) : SharedCopied p np d is s s' := by
  induction is generalizing s with
  | nil =>
    cases h
    exact ⟨fun j => (if_neg List.not_mem_nil).symm, fun _ => rfl, .refl d _, rfl, rfl⟩
  | cons i is ih =>
    obtain ⟨s1, hround, hrest⟩ := bind_eq_ok.mp h
    obtain ⟨hi, his⟩ := List.nodup_cons.mp his
    exact (forkShmem_copied hround).cons (ih hrest his) hi ((forkShmem_rest hround).others p hne)

/-- The loop over the shared pages, for both kinds of process. -/
theorem forkShm_copied (h : forkShm s p np d = .ok s') (hne : p ≠ np) :
    SharedCopied p np d (if isCm (s.proc p).name then [] else List.finRange SHM_MAXNUM) s s' := by
  unfold forkShm at h
  split_ifs at h ⊢
  · cases h
    exact ⟨fun j => (if_neg List.not_mem_nil).symm, fun _ => rfl, .refl d _, rfl, rfl⟩
  · exact forkShmRounds_copied h (List.nodup_finRange _) hne

/-! ## The name -/

/-- The string at `container->init`, which is null, of a process in the container `c`. -/
def initString (d : Pgdir) (mem : Mem) (c : Option CIdx) : Res Bytes :=
  match c with
  | some _ => ustring d mem KERNBASE 0
  | none => do
    let ptr ← uword d mem 8
    if KERNBASE ≤ ptr then throw .undefined else ustring d mem KERNBASE ptr

theorem initString_congr {mem mem' : Mem} (h : ∀ va, uread d mem' va = uread d mem va)
    (c : Option CIdx) : initString d mem' c = initString d mem c := by
  unfold initString
  simp only [uread_congr_uword h, uread_congr_ustring h]

/-- The name `name'` of a child whose slot had the name `old`. -/
inductive NamedAfter (d : Pgdir) (mem : Mem) (c : Option CIdx) (name old : Bytes) : Bytes → Prop
  | parent (h : isCm name = false) : NamedAfter d mem c name old (safestrcpy old name 16)
  | manager (h : isCm name = true) (init : Bytes) (hinit : initString d mem c = .ok init) :
      NamedAfter d mem c name old (safestrcpy old init (strlen init))

theorem forkName_named {name : Bytes} (h : forkName s p np d = .ok name) :
    NamedAfter d s.km.mem (s.proc np).container (s.proc p).name (s.proc np).name name := by
  unfold forkName at h
  split_ifs at h with hcm
  · obtain ⟨init, hinit, h⟩ := bind_eq_ok.mp h
    split_ifs at h
    cases h
    exact .manager hcm init hinit
  · cases h
    exact .parent (by simpa using hcm)

/-! ## The child -/

theorem dupFiles_child {fds : List (Fin NOFILE)} (h : dupFiles p np fds s = .ok s') :
    s'.km = s.km ∧ (s'.proc np).name = (s.proc np).name ∧ s'.ptableAddr = s.ptableAddr ∧
      s'.pq = s.pq := by
  obtain ⟨file, ofile, rfl⟩ := dupFiles_eq_ok h
  refine ⟨rfl, ?_, rfl, rfl⟩
  dsimp only
  rw [setProc_self]

/-- A child that `fork` has filled in, from the state `s` where it has its page directory. The
memory is `mem` before the priority is set. -/
structure ChildMade (s : Kernel) (p np : PIdx) (d : Pgdir) (mem : Mem) (s' : Kernel) : Prop where
  entry : ∀ j, (s'.proc np).shared_mem j =
    if isCm (s.proc p).name then (s.proc np).shared_mem j else s.copiedShmem p np j
  shm : ∀ g, s'.shm g = { s.shm g with
    refcount := uinc^[if isCm (s.proc p).name then 0 else
      (List.finRange SHM_MAXNUM).countP fun i => ((s.proc p).shared_mem i).global_ptr = some g]
        (s.shm g).refcount }
  counted : NullWrites d s.km.mem mem (if isCm (s.proc p).name then 0 else
    (List.finRange SHM_MAXNUM).countP fun i => ((s.proc p).shared_mem i).global_ptr = none) none
      none
  named : NamedAfter d mem (s.proc p).container (s.proc p).name (s.proc np).name (s'.proc np).name
  lowered : Lowered s.pq np (s.lowers p (s'.proc np).name) (s.procAddr (some np)) d mem s'.km.mem

/-- The parts of `forkChild` once more, with the name and the memory. The state before the priority
is set is `s2`. -/
theorem forkChild_steps {ip : Slot} (h : forkChild s p np d = .ok s') (hne : p ≠ np)
    (hcwd : (s.proc p).cwd = some ip) :
    ∃ s1 s2 s3, forkShm (s.setProc np ((s.proc np).child (s.proc p) p)) p np d = .ok s1 ∧
    ForkTail p np s1 s2 ∧ s2.km = s1.km ∧ s2.ptableAddr = s1.ptableAddr ∧ s2.pq = s.pq ∧
      NamedAfter d s1.km.mem (s.proc p).container (s.proc p).name (s.proc np).name
      (s2.proc np).name ∧
      forkPrio s2 p np d = .ok s3 ∧ s' = s3.setProc np { s3.proc np with state := .RUNNABLE } := by
  obtain ⟨s1, s2, s3, name, s4, hshm, hfiles, hidup, hname, hprio, rfl⟩ := forkChild_eq_ok h
  rw [hcwd] at hidup
  cases hidup
  have htail := (dupFiles_tail hfiles).of_setProc rfl rfl rfl
  obtain ⟨hkm, hold, haddr, hpq⟩ := dupFiles_child hfiles
  refine ⟨s1, _, s4, hshm, ?_, ?_, ?_, ?_, ?_, hprio, rfl⟩
  · have hidup : ForkTail p np s2 { s2 with fs := idup s2.fs ip } := { ForkTail.refl p np s2 with }
    refine (htail.trans hidup).trans
      (.of_setProc (.of_setProc (.refl p np _) ?_ ?_ ?_) ?_ ?_ ?_) <;> rfl
  · exact hkm
  · exact haddr
  · have hpq1 := forkShm_pq hshm
    exact hpq.trans hpq1
  · have hnamed := forkName_named hname
    have hrest := (forkShm_rest hshm).trans htail.toForkRest
    have hcontainer := congrArg Ident.container (Proc.ident_of_core hrest.core)
    have hparent := hrest.others p hne
    have hslot := (forkShm_copied hshm hne).name
    rw [setProc_self] at hcontainer hold hslot
    rw [setProc_of_ne _ _ _ hne] at hparent
    rw [setProc_self, setProc_of_ne _ _ _ hne] at hnamed
    have hnamed' : NamedAfter d s2.km.mem (s2.proc np).container (s2.proc p).name
        (s2.proc np).name name := hnamed
    rw [show (s2.proc np).container = (s.proc p).container from hcontainer, hparent,
      show (s2.proc np).name = (s.proc np).name from hold.trans hslot, hkm] at hnamed'
    rw [setProc_self]
    exact hnamed'

theorem forkChild_made {ip : Slot} (h : forkChild s p np d = .ok s') (hne : p ≠ np)
    (hcwd : (s.proc p).cwd = some ip) (hsame : s.pq.priority np = s.pq.priority p)
    (hpid : ∀ q, (s.proc q).pid = (s.proc np).pid → q = np) : ∃ mem, ChildMade s p np d mem s' := by
  obtain ⟨s1, s2, s3, hshm, htail, hkm, haddr, hpq, hnamed, hprio, rfl⟩ :=
    forkChild_steps h hne hcwd
  have hcopied := forkShm_copied hshm hne
  have hrest := (forkShm_rest hshm).trans htail.toForkRest
  have hparent : s2.proc p = s.proc p := (hrest.others p hne).trans (setProc_of_ne _ _ _ hne)
  have hident := Proc.ident_of_core hrest.core
  rw [setProc_self] at hident
  have hpid2 : ∀ q, (s2.proc q).pid = (s.proc q).pid := fun q => by
    by_cases hq : q = np
    · rw [hq]
      exact congrArg Ident.pid hident
    · rw [hrest.others q hq, setProc_of_ne _ _ _ hq]
  have hlowered :=
    forkPrio_writes hne (by rw [hpq, hsame]) (fun q hq => hpid q (by rwa [hpid2, hpid2] at hq))
    (congrArg Ident.parent hident) hprio
  rw [hpq, hkm] at hlowered
  have hlowers : s2.lowers p (s2.proc np).name = s.lowers p (s2.proc np).name := by
    rw [lowers, lowers, hparent, hpq]
  have hptr : s2.procAddr (some np) = s.procAddr (some np) := by
    rw [procAddr, procAddr, haddr, hcopied.addr]
    rfl
  rw [hlowers, hptr] at hlowered
  obtain ⟨q, mem, rfl⟩ := forkPrio_queueOnly hprio
  have hentry := hcopied.entry
  have hcounts := hcopied.shm
  have hcounted := hcopied.writes
  rw [← htail.shared_mem] at hentry
  rw [← htail.shmEq] at hcounts
  simp only [setProc_of_ne _ _ _ hne, copiedShmem, setProc_self] at hentry hcounts hcounted
  refine ⟨s1.km.mem, fun j => ?_, fun g => ?_, ?_, ?_, ?_⟩
  · rw [setProc_self]
    refine (hentry j).trans ?_
    by_cases hcm : isCm (s.proc p).name = true
    · simp only [hcm, if_true, List.not_mem_nil, if_false]
      rfl
    · simp only [hcm, Bool.false_eq_true, if_false, List.mem_finRange, if_true]
      rfl
  · refine (hcounts g).trans ?_
    split_ifs <;> rfl
  · split_ifs at hcounted ⊢ <;> exact hcounted
  · rw [setProc_self]
    exact hnamed
  · rw [setProc_self]
    exact hlowered

/-! ## What is inherited -/

/-- The states in which a process forks: it has a page directory, its pages are not free, its name
is one that `exec` may have set, and the next pid is new. -/
structure ForkInput (s : Kernel) (p : PIdx) (d : Pgdir) : Prop where
  pgdir : (s.proc p).pgdir = some d
  live : s.live p
  name : strlen (s.proc p).name ≤ 15
  notFree : ∀ v e, d.pte v = some e → e.ppn ∉ s.km.free
  fresh : ∀ q, (s.proc q).pid ≠ s.nextpid

/-- The slot that `fork` takes. -/
structure FirstUnused (s : Kernel) (np : PIdx) : Prop where
  unused : (s.proc np).state = .UNUSED
  first : ∀ q < np, (s.proc q).state ≠ .UNUSED

/-- The process has an entry in use for the slot of `shm_list`. -/
def Kernel.holdsSlot (s : Kernel) (p : PIdx) (g : ShmIdx) : Prop :=
  ∃ i, ((s.proc p).shared_mem i).in_use = true ∧ ((s.proc p).shared_mem i).global_ptr = some g

/-- What the child `np` has from its parent `p`, and what is left as it was. Names are strings. -/
structure ForkInherits (s : Kernel) (p np : PIdx) (d : Pgdir) (s' : Kernel) : Prop where
  name : cstr (s'.proc np).name = cstr (s.proc p).name
  container : (s'.proc np).container = (s.proc p).container ∧
    (s'.proc np).container_id = (s.proc p).container_id
  entry : ∀ i, ((s.proc p).shared_mem i).in_use = true →
    ((s'.proc np).shared_mem i).in_use = true ∧
    cstr ((s'.proc np).shared_mem i).name = cstr ((s.proc p).shared_mem i).name ∧
    ((s'.proc np).shared_mem i).va = ((s.proc p).shared_mem i).va ∧
    ((s'.proc np).shared_mem i).global_ptr = ((s.proc p).shared_mem i).global_ptr
  unused : ∀ i, ((s.proc p).shared_mem i).in_use = false →
    ((s'.proc np).shared_mem i).in_use = false
  held : ∀ g, s.holdsSlot p g → s'.shm g = { s.shm g with refcount := uinc (s.shm g).refcount }
  others : ∀ g, ¬ s.holdsSlot p g → s'.shm g = s.shm g
  memory : ∀ va, uread d s'.km.mem va = uread d s.km.mem va

/-- The entries of the parent are all in use, for different slots, and in the slot of the child
their names end where they should. -/
structure PlainEntries (s : Kernel) (p np : PIdx) : Prop where
  used : ∀ i, ((s.proc p).shared_mem i).in_use = true ∧ ((s.proc p).shared_mem i).global_ptr ≠ none
  distinct : ∀ i j, ((s.proc p).shared_mem i).global_ptr = ((s.proc p).shared_mem j).global_ptr →
    i = j
  ended : ∀ i, deref
    (((s.proc np).shared_mem i).name.drop (strlen ((s.proc p).shared_mem i).name)) = 0

/-- A process with a name that the test for the container manager takes: it has no entries in use,
and the name that the child gets is that name anyway. -/
structure PlainManager (s : Kernel) (p np : PIdx) (d : Pgdir) : Prop where
  unused : ∀ i, ((s.proc p).shared_mem i).in_use = false
  name : ∃ init, initString d s.km.mem (s.proc p).container = .ok init ∧
    (if strlen init = 0 then cstr (s.proc np).name else (cstr init).dropLast) = cstr (s.proc p).name

/-- The queue does not show in the memory of the parent: no null pointer is met, or what is written
is there. -/
structure QueueQuiet (s : Kernel) (p np : PIdx) (d : Pgdir) : Prop where
  lost : s.lowers p (s.proc p).name → ¬ (s.pq.enqueue np (s.pq.priority p)).Reaches np →
    uword d s.km.mem PRIORITY_OFF = .ok 1 ∧ uword d s.km.mem NEXT_OFF = .ok 0
  link : (s.lowers p (s.proc p).name → (s.pq.enqueue np (s.pq.priority p)).Reaches np) →
    (s.pq.noTail (s.pq.priority p) = true ∨ s.lowers p (s.proc p).name ∧ s.pq.noTail 1 = true) →
    uword d s.km.mem NEXT_OFF = .ok (s.procAddr (some np) % 2 ^ 32)

/-! ## Counting -/

section Count

variable {n : ℕ}

theorem countP_finRange (P : Fin n → Bool) :
    (List.finRange n).countP P = (Finset.univ.filter fun i => P i = true).card := by
  rw [List.countP_eq_length_filter,
    ← List.toFinset_card_of_nodup ((List.nodup_finRange n).filter P)]
  congr 1
  ext i
  simp

/-- Each slot is counted once for its holder, and nothing else is counted, if all pointers are in
use and differ. -/
theorem counts_iff (ptr : Fin n → Option ShmIdx) (use : Fin n → Bool) (hn : n < 2 ^ 32)
    (r : ShmIdx → ℕ) : ((∀ g, (∃ i, use i = true ∧ ptr i = some g) →
        uinc^[(List.finRange n).countP fun i => ptr i = some g] (r g) = uinc (r g)) ∧
      (∀ g, (¬ ∃ i, use i = true ∧ ptr i = some g) →
        uinc^[(List.finRange n).countP fun i => ptr i = some g] (r g) = r g) ∧
      (List.finRange n).countP (fun i => ptr i = none) = 0) ↔
    (∀ i, use i = true ∧ ptr i ≠ none) ∧ ∀ i j, ptr i = ptr j → i = j := by
  have hle : ∀ P : Fin n → Bool, (List.finRange n).countP P < 2 ^ 32 := fun P =>
    (List.countP_le_length).trans_lt (by rwa [List.length_finRange])
  simp only [iterate_uinc_eq_uinc (hle _), iterate_uinc_eq_self (hle _)]
  simp only [countP_finRange, decide_eq_true_eq, Finset.card_eq_one, Finset.card_eq_zero,
    Finset.filter_eq_empty_iff, Finset.mem_univ, true_implies]
  constructor
  · rintro ⟨hheld, hother, hnone⟩
    have hsole : ∀ i, ∃ j, use j = true ∧ ptr j = ptr i ∧ ∀ k, ptr k = ptr i → k = j := by
      intro i
      obtain ⟨g, hg⟩ := Option.ne_none_iff_exists'.mp (hnone (x := i))
      rw [hg]
      by_cases hh : ∃ j, use j = true ∧ ptr j = some g
      · obtain ⟨a, ha⟩ := hheld g hh
        have hmem : ∀ k, ptr k = some g → k = a := fun k hk =>
          Finset.mem_singleton.mp (ha ▸ Finset.mem_filter.mpr ⟨Finset.mem_univ k, hk⟩)
        obtain ⟨j, huse, hj⟩ := hh
        exact ⟨j, huse, hj, fun k hk => (hmem k hk).trans (hmem j hj).symm⟩
      · exact absurd hg (hother g hh (x := i))
    refine ⟨fun i => ⟨?_, hnone (x := i)⟩, fun i j hij => ?_⟩
    · obtain ⟨j, huse, -, hall⟩ := hsole i
      rwa [hall i rfl]
    · obtain ⟨k, -, -, hall⟩ := hsole i
      rw [hall i rfl, hall j hij.symm]
  · rintro ⟨hused, hinj⟩
    refine ⟨?_, fun g hg i hi => hg ⟨i, (hused i).1, hi⟩, fun i => (hused i).2⟩
    rintro g ⟨i, -, hi⟩
    refine ⟨i, Finset.ext fun j => ?_⟩
    rw [Finset.mem_filter, Finset.mem_singleton]
    refine ⟨fun hj => hinj j i (hj.2.trans hi.symm), ?_⟩
    rintro rfl
    exact ⟨Finset.mem_univ j, hi⟩

end Count

/-! ## The whole call -/

theorem isCm_congr {a b : Bytes} (h : cstr a = cstr b) : isCm a = isCm b := by
  have hlen : strlen a = strlen b := congrArg List.length h
  refine Bool.eq_iff_iff.mpr ?_
  rw [isCm, isCm, beq_iff_eq, beq_iff_eq, strncmp_strlen_eq_zero_iff,
    strncmp_strlen_eq_zero_iff, h, hlen]

/-- The name that the child of a container manager gets. -/
theorem cstr_managerName (old init : Bytes) :
    cstr (safestrcpy old init (strlen init)) = if strlen init = 0 then cstr old
    else (cstr init).dropLast := by
  split_ifs with hlen
  · rw [hlen, safestrcpy, if_pos rfl]
  · rw [cstr_safestrcpy old init hlen, List.dropLast_eq_take]
    rfl

namespace NamedAfter

variable {mem : Mem} {c : Option CIdx} {name old name' : Bytes}

theorem cstr_parent (h : NamedAfter d mem c name old name') (hcm : isCm name = false)
    (hlen : strlen name ≤ 15) : cstr name' = cstr name := by
  cases h with
  | parent => rw [cstr_safestrcpy _ _ (by decide), List.take_of_length_le hlen]
  | manager hcm' => cases hcm.symm.trans hcm'

theorem cstr_manager (h : NamedAfter d mem c name old name') (hcm : isCm name = true) :
    ∃ init, initString d mem c = .ok init ∧
      cstr name' = if strlen init = 0 then cstr old else (cstr init).dropLast := by
  cases h with
  | parent hcm' => cases hcm'.symm.trans hcm
  | manager _ init hinit => exact ⟨init, hinit, cstr_managerName _ _⟩

end NamedAfter

/-- The state of `fork` when the child has its page directory, from the state `s` of the call. -/
structure Started (s : Kernel) (p np : PIdx) (d : Pgdir) (s0 : Kernel) : Prop where
  parent : s0.proc p = s.proc p
  name : (s0.proc np).name = (s.proc np).name
  shared_mem : (s0.proc np).shared_mem = fun i => { (s.proc np).shared_mem i with in_use := false }
  shm : s0.shm = s.shm
  pq : s0.pq = s.pq.enqueue np (s.pq.priority p)
  addr : s0.ptableAddr = s.ptableAddr
  ne : p ≠ np
  pid : ∀ q, (s0.proc q).pid = (s0.proc np).pid → q = np
  writes : NullWrites d s.km.mem s0.km.mem 0 none
    (if s.pq.noTail (s.pq.priority p) then some (s.procAddr (some np) % 2 ^ 32) else none)

theorem fork_started {r : Int} (hin : ForkInput s p d) (hnp : FirstUnused s np)
    (h : fork s p = .ok (r, s'))
    (hr : r ≠ -1) : ∃ s0, forkChild s0 p np d = .ok s' ∧ Started s p np d s0 ∧
      (s'.proc np).container = (s.proc p).container ∧
      (s'.proc np).container_id = (s.proc p).container_id := by
  obtain ⟨d1, hd1, ⟨rfl, -⟩ | ⟨s1, hs1, ⟨rfl, -⟩ | ⟨np', -, hok⟩⟩⟩ := fork_cases h
  · exact absurd rfl hr
  · exact absurd rfl hr
  obtain rfl : d1 = d := Option.some.inj (hd1.symm.trans hin.pgdir)
  have hident := (hok.made (show s1.live p by rw [Kernel.live, hs1.proc]; exact hin.live)).child
  obtain ⟨hunused, page, free, q, mem, d', m, htaken, hfree, hcopy, hchild⟩ := hok
  obtain rfl : np' = np := by
    have h1 := htaken.first
    have h2 := htaken.unused
    rw [hs1.proc] at h1 h2
    rcases lt_trichotomy np' np with hlt | heq | hgt
    · exact absurd h2 (hnp.first _ hlt)
    · exact heq
    · exact absurd hnp.unused (h1 _ hgt)
  have hne : p ≠ np' := fun heq => hin.live (heq ▸ hnp.unused)
  have hpq : s1.pq = s.pq := by cases hs1 <;> rfl
  have haddr : s1.ptableAddr = s.ptableAddr := by cases hs1 <;> rfl
  rw [hs1.proc] at hident
  have hprocs := hs1.proc
  refine ⟨_, hchild, ⟨?_, ?_, ?_, hs1.shm, ?_, haddr, hne, fun x hx => ?_, ?_⟩,
    congrArg Ident.container hident, congrArg Ident.container_id hident⟩
  · dsimp only
    rw [update_of_ne hne, hprocs]
  · dsimp only
    rw [update_self, hprocs]
    rfl
  · dsimp only
    rw [update_self, hprocs]
    rfl
  · rw [← hpq]
    exact (pqueueEnqueue_some htaken.enqueued).2
  · by_contra hxn
    dsimp only at hx
    rw [update_self, update_of_ne hxn, hprocs] at hx
    exact hin.fresh x (hx.trans hs1.nextpid)
  · have henq := pqueueEnqueue_writes htaken.enqueued
    have htook := copyuvm_took hcopy
    have hcopied : NullWrites d1 mem m.mem 0 none none := .took htook fun v e he hin' =>
      hin.notFree v e he (hs1.km ▸ hfree ▸ List.mem_cons_of_mem page hin')
    have hall := henq.trans hcopied
    rw [hs1.km, hpq] at hall
    rw [procAddr, haddr] at hall
    exact hall

/-- What the call has written to memory, from the state where the child has its page directory. -/
theorem Started.memory_iff {s0 : Kernel} {mem : Mem} (h : Started s p np d s0)
    (hmade : ChildMade s0 p np d mem s') (hname : cstr (s'.proc np).name = cstr (s.proc p).name) :
    (∀ va, uread d s'.km.mem va = uread d s.km.mem va) ↔
      (if isCm (s.proc p).name then 0 else
        (List.finRange SHM_MAXNUM).countP fun i => ((s.proc p).shared_mem i).global_ptr = none) =
      0 ∧ QueueQuiet s p np d := by
  have hlowered := hmade.lowered
  have hcounted := hmade.counted
  have hprio : s0.pq.priority p = s.pq.priority p := by
    rw [h.pq]
    exact update_of_ne h.ne _ _
  have hlow : s0.lowers p (s'.proc np).name = s.lowers p (s.proc p).name := by
    rw [lowers, lowers, h.parent, hprio, isCm_congr hname]
  have hbin : s.lowers p (s.proc p).name → s0.pq.noTail 1 = s.pq.noTail 1 := fun hl => by
    have hone : (s0.pq.bin 1) = s.pq.bin 1 := by
      rw [h.pq, hl.2.2]
      dsimp only [Pqueue.enqueue]
      exact update_of_ne Nat.one_ne_zero _ _
    rw [Pqueue.noTail, hone, Pqueue.noTail]
  have hptr : s0.procAddr (some np) = s.procAddr (some np) := by
    rw [procAddr, procAddr, h.addr]
  rw [hlow, hptr] at hlowered
  rw [h.parent] at hcounted
  have hfirst := h.writes.trans hcounted
  generalize hk : (if isCm (s.proc p).name then 0 else
        (List.finRange SHM_MAXNUM).countP fun i => ((s.proc p).shared_mem i).global_ptr = none) =
          k at hfirst ⊢
  have hklt : k < 2 ^ 32 := by
    rw [← hk]
    split_ifs
    · decide
    · exact (List.countP_le_length).trans_lt (by rw [List.length_finRange]; decide)
  cases hlowered with
  | stays hnot writes =>
    rw [(hfirst.trans writes).uread_eq_iff (by omega)]
    constructor
    · rintro ⟨hzero, -, hnext⟩
      refine ⟨by omega, fun hl => absurd hl hnot, fun _ htail => hnext _ ?_⟩
      rw [if_pos (htail.resolve_right fun hl => hnot hl.1)]
      rfl
    · rintro ⟨rfl, hquiet⟩
      refine ⟨rfl, nofun, fun x hx => ?_⟩
      have hx' : x ∈ if s.pq.noTail (s.pq.priority p) then some (s.procAddr (some np) % 2 ^ 32)
          else none := hx
      split_ifs at hx' with htail
      · cases hx'
        exact hquiet.link (fun hl => absurd hl hnot) (.inl htail)
      · cases hx'
  | moved hl found writes =>
    rw [(hfirst.trans writes).uread_eq_iff (by omega), hbin hl]
    rw [h.pq] at found
    constructor
    · rintro ⟨hzero, -, hnext⟩
      refine ⟨by omega, fun _ hnot => absurd found hnot, fun _ htail => hnext _ ?_⟩
      by_cases hone : s.pq.noTail 1 = true
      · rw [if_pos hone]
        rfl
      · rw [if_neg hone, if_pos (htail.resolve_right fun hr => hone hr.2)]
        rfl
    · rintro ⟨rfl, hquiet⟩
      refine ⟨rfl, nofun, fun x hx => ?_⟩
      by_cases hone : s.pq.noTail 1 = true
      · rw [if_pos hone] at hx
        cases hx
        exact hquiet.link (fun _ => found) (.inr ⟨hl, hone⟩)
      · rw [if_neg hone] at hx
        have hx' : x ∈ if s.pq.noTail (s.pq.priority p) then some (s.procAddr (some np) % 2 ^ 32)
            else none := hx
        split_ifs at hx' with htail
        · cases hx'
          exact hquiet.link (fun _ => found) (.inl htail)
        · cases hx'
  | lost hl found writes =>
    rw [(hfirst.trans writes).uread_eq_iff (by omega)]
    rw [h.pq] at found
    constructor
    · rintro ⟨hzero, hprio1, hnext⟩
      exact ⟨by omega, fun _ _ => ⟨hprio1 1 rfl, hnext 0 rfl⟩, fun hfound =>
        absurd (hfound hl) found⟩
    · rintro ⟨rfl, hquiet⟩
      obtain ⟨hprio1, hnext⟩ := hquiet.lost hl found
      refine ⟨rfl, fun x hx => ?_, fun x hx => ?_⟩
      · cases hx
        exact hprio1
      · cases hx
        exact hnext

/-- A child of a process that is not taken for the container manager. -/
theorem Started.inherits_iff_entries {s0 : Kernel} {mem : Mem} (h : Started s p np d s0)
    (hmade : ChildMade s0 p np d mem s') (hlen : strlen (s.proc p).name ≤ 15)
    (hcontainer : (s'.proc np).container = (s.proc p).container ∧
      (s'.proc np).container_id = (s.proc p).container_id) (hcm : isCm (s.proc p).name = false) :
    ForkInherits s p np d s' ↔ PlainEntries s p np ∧ QueueQuiet s p np d := by
  have hname : cstr (s'.proc np).name = cstr (s.proc p).name := by
    have hnamed := hmade.named
    rw [h.parent] at hnamed
    exact hnamed.cstr_parent hcm hlen
  have hentry := hmade.entry
  have hcount := hmade.shm
  have hmemory := h.memory_iff hmade hname
  simp only [h.parent, hcm, Bool.false_eq_true, if_false, copiedShmem, h.shared_mem,
    h.shm] at hentry hcount hmemory
  have hcounts := counts_iff (fun i => ((s.proc p).shared_mem i).global_ptr)
    (fun i => ((s.proc p).shared_mem i).in_use) (by decide) (fun g => (s.shm g).refcount)
  have hended : ∀ i, cstr ((s'.proc np).shared_mem i).name = cstr ((s.proc p).shared_mem i).name ↔
      deref (((s.proc np).shared_mem i).name.drop (strlen ((s.proc p).shared_mem i).name)) = 0 := by
    intro i
    rw [hentry i, cstr_strncpy_strlen, List.append_right_eq_self]
    refine ⟨fun hnil => ?_, cstr_of_deref_eq_zero⟩
    by_contra hne
    rw [cstr_of_deref_ne_zero hne] at hnil
    cases hnil
  constructor
  · intro hin
    have hplain := hcounts.mp ⟨fun g hg => ?_, fun g hg => ?_, (hmemory.mp hin.memory).1⟩
    · exact ⟨⟨hplain.1, hplain.2, fun i => (hended i).mp (hin.entry i (hplain.1 i).1).2.1⟩,
        (hmemory.mp hin.memory).2⟩
    · have hheld := hin.held g hg
      rw [hcount g] at hheld
      exact congrArg SharedMem.refcount hheld
    · have hother := hin.others g hg
      rw [hcount g] at hother
      exact congrArg SharedMem.refcount hother
  · rintro ⟨hplain, hquiet⟩
    obtain ⟨hheld, hother, hzero⟩ := hcounts.mpr ⟨hplain.used, hplain.distinct⟩
    refine ⟨hname, hcontainer, fun i hi => ?_, fun i hi => ?_, fun g hg => ?_, fun g hg => ?_,
      hmemory.mpr ⟨hzero, hquiet⟩⟩
    · refine ⟨?_, (hended i).mpr (hplain.ended i), ?_, ?_⟩ <;> rw [hentry i]
      exact hi
    · rw [hentry i]
      exact hi
    · rw [hcount g, hheld g hg]
    · rw [hcount g, hother g hg]

/-- A child of a process that is taken for the container manager. -/
theorem Started.inherits_iff_manager {s0 : Kernel} {mem : Mem} (h : Started s p np d s0)
    (hmade : ChildMade s0 p np d mem s')
    (hcontainer : (s'.proc np).container = (s.proc p).container ∧
      (s'.proc np).container_id = (s.proc p).container_id) (hcm : isCm (s.proc p).name = true) :
    ForkInherits s p np d s' ↔ PlainManager s p np d ∧ QueueQuiet s p np d := by
  obtain ⟨init, hinit, hname⟩ : ∃ init, initString d mem (s.proc p).container = .ok init ∧
      cstr (s'.proc np).name = if strlen init = 0 then cstr (s.proc np).name
      else (cstr init).dropLast := by
    have hnamed := hmade.named
    rw [h.parent, h.name] at hnamed
    exact hnamed.cstr_manager hcm
  have hentry := hmade.entry
  have hcount := hmade.shm
  have hcounted := hmade.counted
  simp only [h.parent, hcm, if_true, h.shared_mem, h.shm, iterate_zero,
    id_eq] at hentry hcount hcounted
  have hnot : ¬ s.lowers p (s.proc p).name := fun hl => by
    cases hcm.symm.trans hl.2.1
  -- The memory that the name is read from is that of the call, if the queue leaves it alone.
  have hread : QueueQuiet s p np d → ∀ va, uread d mem va = uread d s.km.mem va := fun hquiet => by
    rw [(h.writes.trans hcounted).uread_eq_iff (by decide)]
    refine ⟨rfl, nofun, fun x hx => ?_⟩
    have hx' : x ∈ if s.pq.noTail (s.pq.priority p) then some (s.procAddr (some np) % 2 ^ 32)
        else none := hx
    split_ifs at hx' with htail
    · cases hx'
      exact hquiet.link (fun hl => absurd hl hnot) (.inl htail)
    · cases hx'
  constructor
  · intro hin
    have hquiet := ((h.memory_iff hmade hin.name).mp hin.memory).2
    refine ⟨⟨fun i => ?_, init, ?_, ?_⟩, hquiet⟩
    · by_contra huse
      have hsame := (hin.entry i (by simpa using huse)).1
      rw [hentry i] at hsame
      cases hsame
    · rw [← hinit, initString_congr (hread hquiet)]
    · rw [← hname, hin.name]
  · rintro ⟨hplain, hquiet⟩
    obtain ⟨init', hinit', hname'⟩ := hplain.name
    rw [← initString_congr (hread hquiet), hinit] at hinit'
    cases hinit'
    have hsame : cstr (s'.proc np).name = cstr (s.proc p).name := hname.trans hname'
    refine ⟨hsame, hcontainer, fun i hi => ?_, fun i _ => ?_, fun g hg => ?_, fun g _ => ?_, ?_⟩
    · cases hi.symm.trans (hplain.unused i)
    · rw [hentry i]
    · obtain ⟨i, hi, -⟩ := hg
      cases hi.symm.trans (hplain.unused i)
    · rw [hcount g]
    · rw [h.memory_iff hmade hsame, if_pos hcm]
      exact ⟨rfl, hquiet⟩

/-- Without a current directory, `idup` counts in the memory of the parent. -/
theorem Started.not_inherits {s0 : Kernel} (h : Started s p np d s0)
    (hchild : forkChild s0 p np d = .ok s')
    (hcwd : (s.proc p).cwd = none) : ¬ ForkInherits s p np d s' := by
  intro hin
  obtain ⟨s1, s2, s3, name, s4, hshm, hfiles, hidup, -, hprio, rfl⟩ := forkChild_eq_ok hchild
  rw [h.parent, hcwd] at hidup
  obtain ⟨mem, hinc, hidup⟩ := bind_eq_ok.mp hidup
  cases hidup
  obtain ⟨w, hw, -, hword⟩ := uword_uincWord hinc (by decide)
  have hbefore :=
    ((h.writes.only.trans (forkShm_copied hshm h.ne).writes.only).uword_eq (a := 8)
      (by decide)).symm
  have hafter : uword d s4.km.mem 8 = uword d mem 8 :=
    (forkPrio_fieldsOnly hprio).uword_eq (by decide)
  have hsame : uword d s4.km.mem 8 = uword d s.km.mem 8 := uread_congr_uword hin.memory 8
  rw [(dupFiles_child hfiles).1] at hw
  have hinc : Except.ok (uinc w) = Except.ok w :=
    (hword.symm.trans hafter.symm).trans (hsame.trans (hbefore.trans hw))
  exact uinc_ne w (Except.ok.inj hinc)

/-- **What a child inherits.** A `fork` that succeeds gives the child what it should have exactly
when the parent has a current directory; has all its entries in use, for different slots, with names
that end in the slot of the child, or a name that is taken for the container manager's, no entries
and a child that gets this name anyway; and the queue does not show in the memory of the parent. -/
theorem fork_inherits_iff {r : Int} (hin : ForkInput s p d) (hnp : FirstUnused s np)
    (h : fork s p = .ok (r, s')) (hr : r ≠ -1) :
    ForkInherits s p np d s' ↔ (∃ ip, (s.proc p).cwd = some ip) ∧
      (isCm (s.proc p).name = false ∧ PlainEntries s p np ∨
        isCm (s.proc p).name = true ∧ PlainManager s p np d) ∧
      QueueQuiet s p np d := by
  obtain ⟨s0, hchild, hstarted, hcontainer⟩ := fork_started hin hnp h hr
  obtain hip | ⟨ip, hip⟩ := Option.eq_none_or_eq_some (s.proc p).cwd
  · exact iff_of_false (hstarted.not_inherits hchild hip) fun h => absurd h.1 (by simp [hip])
  rw [and_iff_right ⟨ip, hip⟩]
  have hself : s0.pq.priority np = s0.pq.priority p := by
    rw [hstarted.pq]
    exact (update_self ..).trans (update_of_ne hstarted.ne _ _).symm
  obtain ⟨mem, hmade⟩ := forkChild_made hchild hstarted.ne
    (by rw [hstarted.parent, hip]) hself hstarted.pid
  cases hcm : isCm (s.proc p).name with
  | false =>
    rw [hstarted.inherits_iff_entries hmade hin.name hcontainer hcm]
    simp
  | true =>
    rw [hstarted.inherits_iff_manager hmade hcontainer hcm]
    simp

/-! ## Two processes -/

/-- A kernel whose first process has one page, and either all entries in use, for different slots,
or none. -/
def Kernel.forker (used : Bool) : Kernel :=
  { (Kernel.onePage false 80).setProc 0
      { (Kernel.onePage false 80).proc 0 with
        state := .RUNNING
        pid := 1
        cwd := some 0
        shared_mem := fun i =>
          { in_use := used, name := [97], va := (i + 1) * PGSIZE,
            global_ptr := if used then some i else none } } with
    nextpid := 2
    shm := fun g => { name := [97], pa := (200 + g) * PGSIZE, refcount := 1, in_use := used,
                      container_id := 0 } }

theorem forker_input (used : Bool) : ForkInput (.forker used) 0 (.single 3) where
  pgdir := rfl
  live := nofun
  name := show strlen [97] ≤ 15 by decide
  notFree v e he := ((single_sound false (by decide)).mapped he).2
  fresh q := by
    by_cases hq : q = 0
    · rw [hq]
      exact nofun
    · show ((Kernel.setProc _ 0 _).proc q).pid ≠ 2
      rw [setProc_of_ne _ _ _ hq]
      show ((Kernel.setProc _ 0 _).proc q).pid ≠ 2
      rw [setProc_of_ne _ _ _ hq]
      exact nofun

theorem forker_firstUnused (used : Bool) : FirstUnused (.forker used) 1 where
  unused := rfl
  first q hq := by
    obtain rfl : q = 0 := Fin.ext (Nat.lt_one_iff.mp hq)
    exact nofun

set_option maxRecDepth 100000 in
/-- With all four entries in use, the child has them too. -/
theorem fork_inherits_all_used : ∃ r s', fork (.forker true) 0 = .ok (r, s') ∧ r ≠ -1 ∧
    ForkInherits (.forker true) 0 1 (.single 3) s' := by
  have hrun : (fork (.forker true) 0).toOption.any (fun x => x.1 ≠ -1) = true := by
    decide +kernel
  obtain ⟨⟨r, s'⟩, hrun, hr⟩ := (Option.any_eq_true _ _).mp hrun
  have hr' : r ≠ -1 := of_decide_eq_true hr
  have hfork := toOption_eq_some.mp hrun
  refine ⟨r, s', hfork, hr',
    (fork_inherits_iff (forker_input true) (forker_firstUnused true) hfork hr').mpr ?_⟩
  refine ⟨⟨0, rfl⟩,
    .inl ⟨by decide, fun i => ⟨rfl, nofun⟩, fun i j hij => Option.some.inj hij, fun i => rfl⟩, ?_,
    ?_⟩
  · exact fun hl => absurd hl.1 (by decide)
  · rintro - (htail | ⟨hl, -⟩)
    · cases htail
    · exact absurd hl.1 (by decide)

set_option maxRecDepth 100000 in
/-- Without entries in use, the four null pointers are counted: the word at address 20 of the parent
goes up by four. -/
theorem fork_counts_null_pointers : ∃ r s', ForkInput (.forker false) 0 (.single 3) ∧
    FirstUnused (.forker false) 1 ∧ fork (.forker false) 0 = .ok (r, s') ∧ r ≠ -1 ∧
    uread (.single 3) (Kernel.forker false).km.mem 20 = some 7 ∧
    uread (.single 3) s'.km.mem 20 = some 11 ∧
    ¬ ForkInherits (.forker false) 0 1 (.single 3) s' := by
  have hrun : (fork (.forker false) 0).toOption.any
      (fun x => x.1 ≠ -1 && uread (.single 3) x.2.km.mem 20 == some 11) = true := by
    decide +kernel
  obtain ⟨⟨r, s'⟩, hrun, hr⟩ := (Option.any_eq_true _ _).mp hrun
  rw [Bool.and_eq_true, decide_eq_true_eq, beq_iff_eq] at hr
  refine ⟨r, s', forker_input false, forker_firstUnused false, toOption_eq_some.mp hrun, hr.1, rfl,
    hr.2, fun hin => ?_⟩
  have hsame := hin.memory 20
  rw [hr.2] at hsame
  cases hsame

end Dockv6
