import Dockv6.Foundations.Ensures
import Dockv6.Kernel.Proc

/-!
# What does not panic over a page table

`mappages` panics over a page that is mapped already, and `copyuvm` over one that is not. The
functions of this module read and write user memory, free pages and work on the tables of the
kernel, and never stop for these reasons, whatever the page tables are.
-/

namespace Dockv6

open Kernel

/-- The panics over a directory that has holes, or pages behind its end. -/
def Stop.holes (e : Stop) : Prop :=
  e = .panic "remap" ∨ e = .panic "copyuvm: pte should exist" ∨
    e = .panic "copyuvm: page not present"

instance (e : Stop) : Decidable e.holes := inferInstanceAs (Decidable (_ ∨ _ ∨ _))

variable {s : Kernel} {p np : PIdx} {i g : ShmIdx} {d : Pgdir} {m : Kmem} {mem : Mem} {va n : ℕ}
  {name : Bytes}

/-! ## User memory -/

/-- A write through a user address panics over no page table. -/
theorem uwrite_safe {b : UInt8} : Safe Stop.holes (uwrite d mem va b) := by
  unfold uwrite
  split
  · exact .throw (by decide)
  · exact .ite (fun _ => .pure trivial) fun _ => .throw (by decide)

theorem ustore_safe {bs : Bytes} : Safe Stop.holes (ustore d mem va bs) := by
  induction bs generalizing mem va with
  | nil => exact .pure trivial
  | cons b bs ih => exact uwrite_safe.bind fun _ _ => ih

theorem usetWord_safe {w : ℕ} : Safe Stop.holes (usetWord d mem va w) := ustore_safe

theorem uword_safe : Safe Stop.holes (uword d mem va) := by
  unfold uword
  split
  · exact .pure trivial
  · exact .throw (by decide)

theorem uincWord_safe : Safe Stop.holes (uincWord d mem va) :=
  uword_safe.bind fun _ _ => usetWord_safe

theorem ustring_safe : Safe Stop.holes (ustring d mem n va) := by
  induction n generalizing va with
  | zero => exact .pure trivial
  | succ n ih =>
    rw [ustring]
    split
    · exact .throw (by decide)
    · exact .ite (fun _ => .pure trivial) fun _ => ih.bind fun _ _ => .pure trivial

theorem strncmpUser_safe : Safe Stop.holes (strncmpUser d mem name va n) := by
  induction n generalizing va name with
  | zero => exact .pure trivial
  | succ n ih =>
    rw [strncmpUser]
    split
    · exact .throw (by decide)
    · exact .ite (fun _ => ih) fun _ => .pure trivial

/-! ## Physical pages -/

/-- The only way to stop is the panic of `kfree`. -/
abbrev OnlyKfree (x : Res α) : Prop := Safe (· ≠ .panic "kfree") x

theorem kfree_only (m : Kmem) (page : ℕ) : OnlyKfree (kfree m page) :=
  .ite (fun _ => .throw (not_not.mpr rfl)) fun _ => .pure trivial

/-- The loop of `deallocuvm`. -/
theorem deallocRounds_only {v hi : ℕ} : OnlyKfree (deallocRounds n d m v hi) := by
  induction n generalizing d m v with
  | zero => exact .pure trivial
  | succ n ih =>
    rw [deallocRounds]
    refine .ite (fun _ => ?_) fun _ => .pure trivial
    split
    · exact ih
    · split
      · exact ih
      · exact .ite (fun _ => .throw (not_not.mpr rfl)) fun _ => (kfree_only m _).bind fun _ _ => ih

theorem deallocuvm_only {oldsz newsz : ℕ} : OnlyKfree (deallocuvm d m oldsz newsz) :=
  .ite (fun _ => .pure trivial) fun _ => deallocRounds_only.bind fun _ _ => .pure trivial

/-- The loop of `freevm` over the page tables. -/
theorem freeAll_only {shared l : List ℕ} : OnlyKfree (freeAll shared m l) := by
  induction l generalizing m with
  | nil => exact .pure trivial
  | cons page l ih => exact .ite (fun _ => ih) fun _ => (kfree_only m page).bind fun _ _ => ih

/-- `freevm` panics in `kfree` or not at all. -/
theorem freevm_only {shared : List ℕ} : OnlyKfree (freevm shared d m) :=
  deallocuvm_only.bind fun _ _ => freeAll_only.bind fun m' _ => kfree_only m' _

theorem Stop.holes.ne_kfree {e : Stop} (h : e.holes) : e ≠ .panic "kfree" := by
  rintro rfl
  exact absurd h (by decide)

theorem kfree_safe (m : Kmem) (page : ℕ) : Safe Stop.holes (kfree m page) :=
  (kfree_only m page).weaken fun _ => Stop.holes.ne_kfree

theorem freevm_safe {shared : List ℕ} : Safe Stop.holes (freevm shared d m) :=
  freevm_only.weaken fun _ => Stop.holes.ne_kfree

/-! ## Shared pages -/

theorem shmFill_safe {o : Option ShmIdx} : Safe Stop.holes (shmFill s p d name o va g) := by
  unfold shmFill
  split
  · exact .ite (fun _ => .pure trivial) fun _ => .throw (by decide)
  · exact ustore_safe.bind fun _ _ => usetWord_safe.bind fun _ _ => usetWord_safe.bind fun _ _ =>
      usetWord_safe.bind fun _ _ => .pure trivial

/-- The end of `shm_get` maps no page. -/
theorem shmAttach_safe {o : Option ShmIdx} : Safe Stop.holes (shmAttach s p d name o g) :=
  shmFill_safe.bind fun _ _ => .pure trivial

theorem shmRemove_safe : Safe Stop.holes (shmRemove s p d g i) := by
  refine .ite (fun _ => .throw (by decide)) fun _ => .ite (fun _ => ?_) fun _ => .pure trivial
  split
  · exact .throw (by decide)
  · exact (kfree_safe _ _).bind fun _ _ => .pure trivial

/-- `shm_rem` frees a page at most. -/
theorem shmRem_safe : Safe Stop.holes (shmRem s p name) := by
  unfold shmRem
  split
  · exact .pure trivial
  split
  · exact .pure trivial
  split
  · exact .throw (by decide)
  · exact shmRemove_safe.bind fun _ _ => .pure trivial

/-! ## The priority queue -/

theorem setPriority_safe {q : Option PIdx} {priority : ℕ} :
    Safe Stop.holes (s.setPriority d q priority) := by
  unfold setPriority
  split
  · exact .pure trivial
  · exact usetWord_safe.bind fun _ _ => .pure trivial

theorem setNext_safe {q next : Option PIdx} : Safe Stop.holes (s.setNext d q next) := by
  unfold setNext
  split
  · exact .pure trivial
  · exact usetWord_safe.bind fun _ _ => .pure trivial

/-- Enqueueing writes to the queue, or through a null pointer. -/
theorem pqueueEnqueue_safe {q : Option PIdx} {priority : ℕ} :
    Safe Stop.holes (pqueueEnqueue s d q priority) := by
  refine setPriority_safe.bind fun s' _ => .ite (fun _ => .throw (by decide)) fun _ => ?_
  dsimp only
  split
  · exact setNext_safe
  · exact setNext_safe.bind fun _ _ => setNext_safe

theorem isAncestor_safe {cur : PIdx} : Safe Stop.holes (isAncestor s cur n p) := by
  induction n generalizing p with
  | zero => exact .throw (by decide)
  | succ n ih =>
    rw [isAncestor]
    refine .ite (fun _ => .pure trivial) fun _ => .ite (fun _ => .pure trivial) fun _ => ?_
    split
    · exact .throw (by decide)
    · exact ih

theorem unlinkAfter_safe {pid : Int} : Safe Stop.holes (unlinkAfter s pid n p) := by
  induction n generalizing p with
  | zero => exact .throw (by decide)
  | succ n ih =>
    rw [unlinkAfter]
    split
    · exact .pure trivial
    · exact .ite (fun _ => .pure trivial) fun _ => ih

/-- The loop over the bins. -/
theorem unlinkBins_safe {pid : Int} {is : List ℕ} {found : Option PIdx} :
    Safe Stop.holes (unlinkBins pid is s found) := by
  induction is generalizing s found with
  | nil => exact .pure trivial
  | cons i is ih =>
    rw [unlinkBins]
    split
    · exact ih
    · exact .ite (fun _ => .pure trivial) fun _ => unlinkAfter_safe.bind fun _ _ => ih

/-- `prio_set` maps no page. -/
theorem prioSet_safe {pid priority : Int} : Safe Stop.holes (prioSet s p d pid priority) := by
  have hmay : ∀ q, Safe Stop.holes (mayPrioSet s p pid q) := fun q =>
    .ite (fun _ => .pure trivial) fun _ => isAncestor_safe
  unfold prioSet prioSetWith
  split
  · exact .pure trivial
  · refine .ite (fun _ => .pure trivial) fun _ => (hmay _).bind fun mine _ => ?_
    refine .ite (fun _ => .pure trivial) fun _ => .ite (fun _ => .pure trivial) fun _ => ?_
    exact unlinkBins_safe.bind fun _ _ => pqueueEnqueue_safe.bind fun _ _ => .pure trivial

/-! ## Fork, but for the copy -/

/-- The charge to the container. -/
theorem forkCharge_safe : Safe Stop.holes (forkCharge s p) := by
  refine .ite (fun _ => .pure trivial) fun _ => ?_
  split
  · exact .throw (by decide)
  · exact .ite (fun _ => .pure trivial) fun _ => .pure trivial

theorem allocproc_safe {priority : ℕ} : Safe Stop.holes (allocproc s d priority) := by
  unfold allocproc
  split
  · exact .pure trivial
  · refine pqueueEnqueue_safe.bind fun s' _ => ?_
    dsimp only
    split <;> exact .pure trivial

theorem forkShmem_safe : Safe Stop.holes (forkShmem p np d s i) := by
  unfold forkShmem
  dsimp only
  split
  · exact .pure trivial
  · exact uincWord_safe.bind fun _ _ => .pure trivial

/-- The loop of `fork` over the shared pages. -/
theorem forkShmRounds_safe {is : List ShmIdx} : Safe Stop.holes (forkShmRounds p np d is s) := by
  induction is generalizing s with
  | nil => exact .pure trivial
  | cons i is ih => exact forkShmem_safe.bind fun _ _ => ih

/-- The loop of `fork` over the descriptors. -/
theorem dupFiles_safe {fds : List (Fin NOFILE)} : Safe Stop.holes (dupFiles p np fds s) := by
  induction fds generalizing s with
  | nil => exact .pure trivial
  | cons fd fds ih =>
    rw [dupFiles]
    split
    · exact ih
    · have hdup : ∀ f, Safe Stop.holes (filedup s f) := fun f =>
        .ite (fun _ => .throw (by decide)) fun _ => .pure trivial
      exact (hdup _).bind fun _ _ => ih

theorem idupPtr_safe {ip : Option Slot} : Safe Stop.holes (idupPtr s d ip) := by
  unfold idupPtr
  split
  · exact .pure trivial
  · exact uincWord_safe.bind fun _ _ => .pure trivial

theorem containerInit_safe : Safe Stop.holes (containerInit s np d) := by
  unfold containerInit
  split
  · exact ustring_safe
  · exact uword_safe.bind fun _ _ => .ite (fun _ => .throw (by decide)) fun _ => ustring_safe

theorem forkName_safe : Safe Stop.holes (forkName s p np d) :=
  .ite (fun _ => containerInit_safe.bind fun _ _ => .ite (fun _ => .throw (by decide)) fun _ =>
    .pure trivial)
    fun _ => .pure trivial

theorem forkPrio_safe : Safe Stop.holes (forkPrio s p np d) := by
  have hbelow : Safe Stop.holes (forkPrioBelow s p np d) :=
    .ite (fun _ => prioSet_safe) fun _ => .pure trivial
  exact hbelow.bind fun _ _ => prioSet_safe.bind fun _ _ => .pure trivial

/-- After its `copyuvm`, `fork` does not panic over a page table. -/
theorem forkChild_safe : Safe Stop.holes (forkChild s p np d) := by
  have hshm : ∀ s, Safe Stop.holes (forkShm s p np d) := fun s =>
    .ite (fun _ => .pure trivial) fun _ => forkShmRounds_safe
  exact (hshm _).bind fun _ _ => dupFiles_safe.bind fun _ _ => idupPtr_safe.bind fun _ _ =>
    forkName_safe.bind fun _ _ => forkPrio_safe.bind fun _ _ => .pure trivial

end Dockv6
