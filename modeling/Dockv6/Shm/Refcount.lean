import Dockv6.Foundations.RefCount
import Dockv6.Kernel.Boot
import Dockv6.Kernel.Enter
import Dockv6.Kernel.Memory

/-!
# The reference counts of shared pages

The count of a slot of `shm_list` is the number of entries in use that point to it. But `fork`
counts a pointer of an entry that is no longer in use (`stale_pointer_counted`), the two searches of
`shm_rem` may not agree, and `shm_get` goes on without a free entry or a free page.
-/

namespace Dockv6

open Kernel Function

/-- The slot that an entry of a process refers to, if the process is live and the entry in use. -/
def Proc.shmRef (x : Proc) (i : ShmIdx) : Option ShmIdx :=
  if x.state = .UNUSED ∨ (x.shared_mem i).in_use = false then none else (x.shared_mem i).global_ptr

/-- The table of all references. -/
def Kernel.shmRef (s : Kernel) (k : PIdx × ShmIdx) : Option ShmIdx := (s.proc k.1).shmRef k.2

/-- The pairs of a live process and an entry of it that is in use and points to the slot `g`. -/
def Kernel.shmHolders (s : Kernel) (g : ShmIdx) : Finset (PIdx × ShmIdx) :=
  Finset.univ.filter fun k => s.live k.1 ∧ ((s.proc k.1).shared_mem k.2).in_use = true ∧
    ((s.proc k.1).shared_mem k.2).global_ptr = some g

variable {s s' : Kernel} {p np : PIdx} {i g : ShmIdx} {d : Pgdir}

theorem shmHolders_eq (s : Kernel) (g : ShmIdx) : s.shmHolders g = refs s.shmRef g := by
  ext k
  rw [mem_refs, shmHolders, Finset.mem_filter, Kernel.shmRef, Proc.shmRef]
  split_ifs with h
  · rcases h with h | h <;> simp [live, h]
  · obtain ⟨hstate, huse⟩ := not_or.mp h
    simp [live, hstate, Bool.not_eq_false _ ▸ huse]

/-- The counts are right, a free slot has no name, zombies refer to nothing, and no file is open. -/
structure ShmInv (s : Kernel) : Prop where
  count : ∀ g, (s.shm g).refcount = (refs s.shmRef g).card
  use : ∀ g, (s.shm g).in_use = true ↔ 0 < (refs s.shmRef g).card
  unnamed : ∀ g, (s.shm g).in_use = false → cstr (s.shm g).name = []
  zombie : ∀ {p} i, (s.proc p).state = .ZOMBIE → s.shmRef (p, i) = none
  files : ∀ p fd, (s.proc p).ofile fd = none

namespace ShmInv

/-- There are at most 256 references. -/
theorem lt (h : ShmInv s) (g : ShmIdx) : (s.shm g).refcount < 2 ^ 32 - 1 := by
  rw [h.count]
  exact (Finset.card_le_univ _).trans_lt (by simp [SHM_MAXNUM, NPROC])

theorem unreferenced (h : ShmInv s) (hg : (s.shm g).in_use = false) : (s.shm g).refcount = 0 := by
  have huse := not_congr (h.use g)
  rw [hg] at huse
  rw [h.count]
  exact Nat.eq_zero_of_not_pos (huse.mp (by simp))

end ShmInv

/-! ## What leaves the references alone -/

/-- The entries, the descriptors and the slots are the same, and the states but for wake-ups. -/
structure ShmSame (s s' : Kernel) : Prop where
  state : ∀ q, (s'.proc q).state.awake = (s.proc q).state.awake
  shared_mem : ∀ q, (s'.proc q).shared_mem = (s.proc q).shared_mem
  ofile : ∀ q, (s'.proc q).ofile = (s.proc q).ofile
  shm : s'.shm = s.shm

theorem Proc.shmRef_congr {x y : Proc} (hstate : x.state.awake = y.state.awake)
    (hmem : x.shared_mem = y.shared_mem) : x.shmRef = y.shmRef := by
  funext i
  simp only [shmRef, ProcState.unused_iff hstate, hmem]

namespace ShmSame

theorem refl (s : Kernel) : ShmSame s s := ⟨fun _ => rfl, fun _ => rfl, fun _ => rfl, rfl⟩

theorem trans {s1 s2 s3 : Kernel} (h : ShmSame s1 s2) (h' : ShmSame s2 s3) : ShmSame s1 s3 where
  state q := (h'.state q).trans (h.state q)
  shared_mem q := (h'.shared_mem q).trans (h.shared_mem q)
  ofile q := (h'.ofile q).trans (h.ofile q)
  shm := h'.shm.trans h.shm

theorem of_memSame (h : MemSame s s') : ShmSame s s' where
  state q := congrArg MemView.state (h.view q)
  shared_mem q := congrArg MemView.shared_mem (h.view q)
  ofile q := congrArg MemView.ofile (h.view q)
  shm := h.shm

theorem of_proc (h : s'.proc = s.proc) (hshm : s'.shm = s.shm) : ShmSame s s' :=
  ⟨fun q => by rw [h], fun q => by rw [h], fun q => by rw [h], hshm⟩

theorem setProc {x : Proc} (hstate : x.state.awake = (s.proc p).state.awake)
    (hmem : x.shared_mem = (s.proc p).shared_mem) (hofile : x.ofile = (s.proc p).ofile) :
    ShmSame s (s.setProc p x) :=
  ⟨setProc_field (fun y => y.state.awake) hstate, setProc_field Proc.shared_mem hmem,
    setProc_field Proc.ofile hofile, rfl⟩

theorem setVm (s : Kernel) (p : PIdx) (d : Pgdir) (m : Kmem) : ShmSame s (s.setVm p d m) := by
  have hproc : ShmSame s (s.setProc p { s.proc p with pgdir := some d }) := .setProc rfl rfl rfl
  exact hproc.trans (.of_proc rfl rfl)

theorem ref (h : ShmSame s s') : s'.shmRef = s.shmRef :=
  funext fun k => congrFun (Proc.shmRef_congr (h.state k.1) (h.shared_mem k.1)) k.2

end ShmSame

/-- The references and the slots are the same, and a new zombie has no references. -/
theorem ShmInv.of_ref (h : ShmInv s) (href : s'.shmRef = s.shmRef) (hshm : s'.shm = s.shm)
    (hzombie : ∀ q, (s'.proc q).state = .ZOMBIE →
      (s.proc q).state = .ZOMBIE ∨ ∀ i, s.shmRef (q, i) = none)
    (hofile : ∀ q, (s'.proc q).ofile = (s.proc q).ofile) : ShmInv s' where
  count g := by rw [hshm, href, h.count]
  use g := by rw [hshm, href, h.use]
  unnamed g := by
    rw [hshm]
    exact h.unnamed g
  zombie {q} i hz := by
    rw [href]
    exact (hzombie q hz).elim (h.zombie i) fun hnone => hnone i
  files q fd := by rw [hofile, h.files]

theorem ShmInv.of_same (h : ShmInv s) (hs : ShmSame s s') : ShmInv s' :=
  h.of_ref hs.ref hs.shm (fun q hz => .inl ((ProcState.zombie_iff (hs.state q)).mp hz)) hs.ofile

theorem growproc_shmSame {n r : Int} (h : growproc s p n = .ok (r, s')) : ShmSame s s' := by
  unfold growproc at h
  split at h
  · cases h
  · obtain ⟨⟨sz, d', m⟩, -, h⟩ := bind_eq_ok.mp h
    dsimp only at h
    split_ifs at h
    · cases h
      exact .setVm s p d' m
    · cases h
      exact (ShmSame.setVm s p d' m).trans (.setProc rfl rfl rfl)

theorem execElf_shmSame {old : Pgdir} {path data : Bytes} {elf : Elfhdr}
    {argv : List Bytes} {r : Int}
    (h : execElf s p old path data elf argv = .ok (r, s')) : ShmSame s s' := by
  obtain ⟨m, -, rfl⟩ | ⟨-, -, -, -, m', -, -, ⟨m'', -, -, rfl⟩ | ⟨img, -, hcommit⟩⟩ :=
    execElf_cases h
  · exact .of_proc rfl rfl
  · exact .of_proc rfl rfl
  · obtain ⟨m'', -, hcommit⟩ := bind_eq_ok.mp hcommit
    cases hcommit
    have hkm : ShmSame s { s with km := m' } := .of_proc rfl rfl
    refine hkm.trans (ShmSame.trans (.setProc ?_ ?_ ?_) (.of_proc rfl rfl)) <;> rfl

theorem exec_shmSame {path : Bytes} {argv : List Bytes} {r : Int}
    (h : exec s p path argv = .ok (r, s')) : ShmSame s s' := by
  obtain ⟨old, ip, s1, -, hnamei, hrest⟩ := exec_cases h
  refine (ShmSame.of_memSame (nameiProc_memSame hnamei)).trans ?_
  obtain ⟨-, rfl⟩ | ⟨i, fs, fs', -, -, -, hrest⟩ := hrest
  · exact .refl _
  have hfs : ShmSame s1 { s1 with fs := fs' } := .of_proc rfl rfl
  obtain rfl | ⟨data, elf, hexec⟩ := hrest
  · exact hfs
  · exact hfs.trans (execElf_shmSame hexec)

/-! ## One reference changes -/

namespace ShmInv

/-- The place `k` gives up the slot `g`, and the slot becomes `x`. -/
theorem drop {k : PIdx × ShmIdx} {x : SharedMem} (h : ShmInv s) (hk : s.shmRef k = some g)
    (href : s'.shmRef = update s.shmRef k none) (hshm : s'.shm = update s.shm g x)
    (hstate : ∀ q, (s'.proc q).state = (s.proc q).state)
    (hofile : ∀ q, (s'.proc q).ofile = (s.proc q).ofile)
    (hcount : x.refcount = (s.shm g).refcount - 1) (huse : x.in_use = true ↔ 1 < (s.shm g).refcount)
    (hname : x.in_use = false → cstr x.name = []) : ShmInv s' := by
  have hcard := card_refs_none hk
  rw [← href] at hcard
  refine ⟨fun g' => ?_, fun g' => ?_, fun g' => ?_, fun {q} i hz => ?_, fun q fd => ?_⟩
  · have hg := hcard g'
    rw [hshm, update_apply]
    by_cases heq : g' = g
    · rw [if_pos heq] at hg ⊢
      rw [hcount, h.count, ← heq]
      omega
    · rw [if_neg heq] at hg ⊢
      rw [h.count]
      omega
  · have hg := hcard g'
    rw [hshm, update_apply]
    by_cases heq : g' = g
    · rw [if_pos heq] at hg ⊢
      rw [huse, h.count, ← heq]
      omega
    · rw [if_neg heq] at hg ⊢
      rw [h.use]
      omega
  · rw [hshm, update_apply]
    split_ifs
    · exact hname
    · exact h.unnamed g'
  · rw [href, update_apply]
    split_ifs
    · rfl
    · exact h.zombie i (hstate q ▸ hz)
  · rw [hofile, h.files]

/-- The place `k` gets the slot `g`, and the slot becomes `x`. -/
theorem add {k : PIdx × ShmIdx} {x : SharedMem} (h : ShmInv s) (hk : s.shmRef k = none)
    (hrun : (s.proc k.1).state ≠ .ZOMBIE) (href : s'.shmRef = update s.shmRef k (some g))
    (hshm : s'.shm = update s.shm g x)
    (hstate : ∀ q, (s'.proc q).state = (s.proc q).state)
    (hofile : ∀ q, (s'.proc q).ofile = (s.proc q).ofile)
    (hcount : x.refcount = (s.shm g).refcount + 1) (huse : x.in_use = true) : ShmInv s' := by
  have hcard := card_refs_some hk g
  rw [← href] at hcard
  refine ⟨fun g' => ?_, fun g' => ?_, fun g' => ?_, fun {q} i hz => ?_, fun q fd => ?_⟩
  · rw [hshm, update_apply, hcard]
    by_cases heq : g' = g
    · rw [if_pos heq, if_pos heq, hcount, h.count, heq]
    · rw [if_neg heq, if_neg heq, h.count, Nat.add_zero]
  · rw [hshm, update_apply, hcard]
    by_cases heq : g' = g
    · simp [heq, huse]
    · rw [if_neg heq, if_neg heq, h.use, Nat.add_zero]
  · rw [hshm, update_apply]
    split_ifs
    · simp [huse]
    · exact h.unnamed g'
  · rw [hstate] at hz
    rw [href, update_of_ne]
    · exact h.zombie i hz
    · rintro rfl
      exact hrun hz
  · rw [hofile, h.files]

end ShmInv

/-- A change of one entry. -/
theorem shmRef_setProc {x : Proc} {e : Shmem} (hp : s.live p) (hstate : x.state = (s.proc p).state)
    (hmem : x.shared_mem = update (s.proc p).shared_mem i e) :
    (s.setProc p x).shmRef =
      update s.shmRef (p, i) (if e.in_use then e.global_ptr else none) := by
  have hlive : (s.proc p).state ≠ .UNUSED := hp
  funext ⟨q, j⟩
  by_cases hq : q = p
  · subst hq
    by_cases hj : j = i
    · subst hj
      cases he : e.in_use <;> simp [Kernel.shmRef, Proc.shmRef, hstate, hmem, hlive, he]
    · simp [Kernel.shmRef, Proc.shmRef, hstate, hmem, hlive, hj]
  · simp [Kernel.shmRef, setProc_of_ne _ _ _ hq, hq]

theorem shmRef_of_in_use (hp : s.live p) (hi : ((s.proc p).shared_mem i).in_use = true) :
    s.shmRef (p, i) = ((s.proc p).shared_mem i).global_ptr :=
  if_neg (not_or.mpr ⟨hp, by simp [hi]⟩)

theorem shmRef_of_free (hi : ((s.proc p).shared_mem i).in_use = false) : s.shmRef (p, i) = none :=
  if_pos (.inr hi)

/-! ## Removal and exit -/

theorem ShmRemoved.ref (h : ShmRemoved s p d g i s') (hp : s.live p) :
    s'.shmRef = update s.shmRef (p, i) none := by
  have href : (s.setProc p ((s.proc p).detached d i)).shmRef = update s.shmRef (p, i) none :=
    shmRef_setProc hp (Proc.detached_state ..) (Proc.detached_shared_mem ..)
  cases h <;> exact href

theorem ShmRemoved.inv (h : ShmRemoved s p d g i s') (hinv : ShmInv s) (hp : s.live p)
    (hi : ((s.proc p).shared_mem i).in_use = true)
    (hg : ((s.proc p).shared_mem i).global_ptr = some g) : ShmInv s' := by
  have hk : s.shmRef (p, i) = some g := (shmRef_of_in_use hp hi).trans hg
  have href := h.ref hp
  have hstate := setProc_field Proc.state ((s.proc p).detached_state d i)
  have hofile := setProc_field Proc.ofile ((s.proc p).detached_ofile d i)
  have hpos : 0 < (s.shm g).refcount := by
    rw [hinv.count]
    exact card_refs_pos hk
  cases h with
  | last e m hcount =>
    refine hinv.drop hk href rfl hstate hofile ?_ ?_ fun _ => cstr_clearName _
    · rw [hcount]
      rfl
    · simp [SharedMem.dealloc, hcount]
  | dropped hcount =>
    have huse : (s.shm g).in_use = true := (hinv.use g).mpr (hinv.count g ▸ hpos)
    refine hinv.drop hk href rfl hstate hofile ?_ ?_ fun hfalse => ?_
    · exact udec_of_pos hpos ((hinv.lt g).trans (by decide))
    · simp only [huse, true_iff]
      omega
    · cases huse.symm.trans hfalse

/-- The slots of the caller's container and the entries of the caller whose names start with `name`
belong to each other. -/
def Kernel.removesOwn (s : Kernel) (p : PIdx) (name : Bytes) : Prop :=
  ∀ g i, s.shmNamed name (s.proc p).container_id g = true → s.shmemNamed p name i = true →
    ((s.proc p).shared_mem i).in_use = true ∧ ((s.proc p).shared_mem i).global_ptr = some g

theorem shmRem_inv {name : Bytes} {r : Int} (h : shmRem s p name = .ok (r, s')) (hinv : ShmInv s)
    (hp : s.live p) (hown : s.removesOwn p name) : ShmInv s' := by
  obtain ⟨rfl, -⟩ | ⟨g, i, d, hg, hi, -, -, hrem⟩ := shmRem_cases h
  · exact hinv
  · obtain ⟨huse, hptr⟩ := hown g i (shmNamed_of_findShm hg) (shmemNamed_of_findShmem hi)
    exact hrem.inv hinv hp huse hptr

/-- The name of the entry `i` finds the entry and the slot that it points to, and nothing else. -/
def Kernel.listed (s : Kernel) (p : PIdx) (i : ShmIdx) : Prop :=
  (∀ j, s.shmemNamed p ((s.proc p).shared_mem i).name j = true → j = i) ∧
    ∀ g, s.shmNamed ((s.proc p).shared_mem i).name (s.proc p).container_id g = true ↔
      ((s.proc p).shared_mem i).global_ptr = some g

theorem strlen_ne_zero_of_listed {j : ShmIdx} (h : s.listed p j) (hij : i ≠ j) :
    strlen ((s.proc p).shared_mem j).name ≠ 0 := by
  intro hlen
  refine hij (h.1 i ?_)
  rw [shmemNamed, hlen]
  rfl

theorem ShmRemoved.proc (h : ShmRemoved s p d g i s') :
    s'.proc = update s.proc p ((s.proc p).detached d i) := by
  cases h <;> rfl

/-- The other entries are found by their names after a removal. -/
theorem ShmRemoved.listed (h : ShmRemoved s p d g i s') (hinv : ShmInv s) (hp : s.live p)
    (hi : s.shmRef (p, i) = some g) {j : ShmIdx} (hij : i ≠ j)
    (hj : ((s.proc p).shared_mem j).in_use = true) (hlisted : s.listed p j) : s'.listed p j := by
  have hlen := strlen_ne_zero_of_listed hlisted hij
  have hentry : (s'.proc p).shared_mem j = (s.proc p).shared_mem j := by
    rw [h.proc, update_self, Proc.detached_shared_mem, update_of_ne hij.symm]
  have hcid : (s'.proc p).container_id = (s.proc p).container_id := by
    rw [h.proc, update_self, Proc.detached_container_id]
  refine ⟨fun k hk => ?_, fun g' => ?_⟩
  · rw [hentry] at hk
    unfold shmemNamed at hk
    rw [h.proc, update_self, Proc.detached_shared_mem] at hk
    by_cases hki : k = i
    · subst hki
      have hclear := strncmp_of_cstr_eq_nil (cstr_clearName ((s.proc p).shared_mem k).name) hlen
      simp [hclear] at hk
    · rw [update_of_ne hki] at hk
      exact hlisted.1 k hk
  · rw [hentry, hcid, ← hlisted.2 g']
    cases h with
    | last e m hcount =>
      by_cases hg : g' = g
      · subst hg
        -- A slot with two references does not go.
        have hone : ¬ ((s.proc p).shared_mem j).global_ptr = some g' := by
          intro hptr
          have hkj : s.shmRef (p, j) = some g' := (shmRef_of_in_use hp hj).trans hptr
          have hle := one_lt_card_refs hi hkj fun heq => hij (congrArg Prod.snd heq)
          have hcard := hinv.count g'
          omega
        have hclear := strncmp_of_cstr_eq_nil (cstr_clearName (s.shm g').name) hlen
        rw [hlisted.2 g']
        simp [shmNamed, setShm, SharedMem.dealloc, hclear, hone]
      · simp [shmNamed, setShm, Kernel.setProc, hg]
    | dropped hcount =>
      by_cases hg : g' = g
      · subst hg
        simp [shmNamed, setShm, Kernel.setProc]
      · simp [shmNamed, setShm, Kernel.setProc, hg]

/-- What `shm_rem` does in a round of `exit`. -/
theorem shmRem_listed {r : Int} (h : shmRem s p ((s.proc p).shared_mem i).name = .ok (r, s'))
    (hlisted : s.listed p i) :
    (((s.proc p).shared_mem i).global_ptr = none ∧ s' = s) ∨
      ∃ g d, ((s.proc p).shared_mem i).global_ptr = some g ∧ (s.proc p).pgdir = some d ∧
        ShmRemoved s p d g i s' := by
  have hself : s.shmemNamed p ((s.proc p).shared_mem i).name i = true := by
    unfold shmemNamed
    rw [beq_iff_eq, strncmp_eq_zero_iff]
  obtain ⟨rfl, hg | hi⟩ | ⟨g, i', d, hg, hi, hd, -, hrem⟩ := shmRem_cases h
  · refine .inl ⟨Option.eq_none_iff_forall_ne_some.mpr fun g hptr => ?_, rfl⟩
    exact List.find?_eq_none.mp hg g (List.mem_finRange g) ((hlisted.2 g).mpr hptr)
  · exact absurd hself (List.find?_eq_none.mp hi i (List.mem_finRange i))
  · obtain rfl := hlisted.1 i' (shmemNamed_of_findShmem hi)
    exact .inr ⟨g, d, (hlisted.2 g).mp (shmNamed_of_findShm hg), hd, hrem⟩

/-- The loop of `exit` over the shared pages gives up every reference, and keeps what each removal
keeps. -/
theorem exitShm_rule {I : Kernel → Prop}
    (hI : ∀ {s s' : Kernel} {i g d}, ShmInv s → s.live p → (s.proc p).pgdir = some d →
      s.shmRef (p, i) = some g → ShmRemoved s p d g i s' → I s → I s')
    {is : List ShmIdx} (h : exitShm p is s = .ok s') (hinv : ShmInv s) (hp : s.live p)
    (hlisted : ∀ i, ((s.proc p).shared_mem i).in_use = true → s.listed p i) (h0 : I s) :
    I s' ∧ ShmInv s' ∧ ∀ i, i ∈ is ∨ s.shmRef (p, i) = none → s'.shmRef (p, i) = none := by
  induction is generalizing s with
  | nil =>
    cases h
    exact ⟨h0, hinv, fun i hi => hi.resolve_left (by simp)⟩
  | cons i is ih =>
    rw [exitShm] at h
    have hskip : s.shmRef (p, i) = none → exitShm p is s = .ok s' →
        I s' ∧ ShmInv s' ∧ ∀ j, j ∈ i :: is ∨ s.shmRef (p, j) = none → s'.shmRef (p, j) = none := by
      intro hnone h
      obtain ⟨hI', hinv', hrest⟩ := ih h hinv hp hlisted h0
      refine ⟨hI', hinv', fun j hj => hrest j ?_⟩
      rcases hj with hj | hj
      · rcases List.mem_cons.mp hj with rfl | hj
        · exact .inr hnone
        · exact .inl hj
      · exact .inr hj
    split_ifs at h with huse
    · obtain ⟨⟨r, s1⟩, hrem, hrest⟩ := bind_eq_ok.mp h
      obtain ⟨hptr, rfl⟩ | ⟨g, d, hptr, hd, hrem⟩ := shmRem_listed hrem (hlisted i huse)
      · exact hskip ((shmRef_of_in_use hp huse).trans hptr) hrest
      have hi : s.shmRef (p, i) = some g := (shmRef_of_in_use hp huse).trans hptr
      have hp1 : s1.live p := by
        rw [Kernel.live, hrem.proc, update_self, Proc.detached_state]
        exact hp
      have hlisted1 : ∀ j, ((s1.proc p).shared_mem j).in_use = true → s1.listed p j := by
        intro j hj
        rw [hrem.proc, update_self, Proc.detached_shared_mem] at hj
        have hij : i ≠ j := by
          rintro rfl
          simp at hj
        rw [update_of_ne hij.symm] at hj
        exact hrem.listed hinv hp hi hij hj (hlisted j hj)
      obtain ⟨hI', hinv', hnone⟩ := ih hrest (hrem.inv hinv hp huse hptr) hp1 hlisted1
        (hI hinv hp hd hi hrem h0)
      refine ⟨hI', hinv', fun j hj => hnone j ?_⟩
      rw [hrem.ref hp, update_apply]
      split_ifs with hij
      · exact .inr rfl
      · exact hj.imp_left fun hj => (List.mem_cons.mp hj).resolve_left fun heq => hij (by rw [heq])
    · exact hskip (shmRef_of_free (by simpa using huse)) h

theorem closeFiles_of_none {fds : List (Fin NOFILE)} (h : ∀ fd, (s.proc p).ofile fd = none) :
    closeFiles p fds s = .ok s := by
  induction fds with
  | nil => rfl
  | cons fd fds ih =>
    rw [closeFiles, h fd]
    exact ih

theorem Proc.shmRef_of_live {x y : Proc} (hx : x.state ≠ .UNUSED) (hy : y.state ≠ .UNUSED)
    (hmem : x.shared_mem = y.shared_mem) : x.shmRef = y.shmRef := by
  funext i
  simp only [shmRef, hx, hy, hmem]

theorem Passed.ref (h : Passed p s s') (hp : s.live p) : s'.shmRef = s.shmRef := by
  have hmem := h.field Proc.shared_mem fun _ _ _ _ => rfl
  funext ⟨q, i⟩
  by_cases hq : q = p
  · subst hq
    refine congrFun (Proc.shmRef_of_live ?_ hp (hmem q)) i
    rw [h.zombie]
    exact nofun
  · exact congrFun (Proc.shmRef_congr (h.awake hq) (hmem q)) i

/-- The last part of `exit`, of a process that refers to nothing. -/
theorem Passed.shmInv (h : Passed p s s') (hinv : ShmInv s) (hp : s.live p)
    (hnone : ∀ i, s.shmRef (p, i) = none) : ShmInv s' := by
  refine hinv.of_ref (h.ref hp) h.shm (fun q hz => ?_) (h.field Proc.ofile fun _ _ _ _ => rfl)
  by_cases hq : q = p
  · exact .inr (hq ▸ hnone)
  · exact .inl ((ProcState.zombie_iff (h.awake hq)).mp hz)

theorem exit_shmInv (h : exit s p = .ok s') (hinv : ShmInv s) (hp : s.live p)
    (hlisted : ∀ i, ((s.proc p).shared_mem i).in_use = true → s.listed p i) : ShmInv s' := by
  obtain ⟨-, s1, s2, hfiles, hshm, hpassed⟩ := exit_cases h
  rw [closeFiles_of_none (hinv.files p)] at hfiles
  cases hfiles
  obtain ⟨-, hinv2, hnone⟩ := exitShm_rule (I := fun _ => True)
    (fun _ _ _ _ _ => id) hshm hinv hp hlisted trivial
  have hp2 : s2.live p := ((exitShm_quiet hshm).live p).mpr hp
  have hmux : ShmSame s2 (exitMutexes s2 p) := .of_memSame (exitMutexes_memSame s2 p)
  refine hpassed.shmInv (hinv2.of_same hmux) ?_ fun i => ?_
  · exact fun hu => hp2 ((ProcState.unused_iff (hmux.state p)).mp hu)
  · rw [hmux.ref]
    exact hnone i (.inl (List.mem_finRange i))

/-! ## Wait -/

/-- A slot without references, freed or filled, changes nothing. -/
theorem ShmInv.setProc_none {x : Proc} (h : ShmInv s) (hold : ∀ i, s.shmRef (p, i) = none)
    (hnew : ∀ i, x.shmRef i = none) (hofile : x.ofile = (s.proc p).ofile) :
    ShmInv (s.setProc p x) := by
  have href : (s.setProc p x).shmRef = s.shmRef := by
    funext ⟨q, i⟩
    by_cases hq : q = p
    · rw [hq, hold i]
      exact (congrArg (Proc.shmRef · i) (setProc_self s p x)).trans (hnew i)
    · exact congrArg (Proc.shmRef · i) (setProc_of_ne s p x hq)
  refine h.of_ref href rfl (fun q hz => ?_) (setProc_field Proc.ofile hofile)
  by_cases hq : q = p
  · exact .inr (hq ▸ hold)
  · exact .inl (by rwa [setProc_of_ne _ _ _ hq] at hz)

theorem ShmInv.of_proc (h : ShmInv s) (hproc : s'.proc = s.proc) (hshm : s'.shm = s.shm) :
    ShmInv s' :=
  h.of_same (.of_proc hproc hshm)

theorem wait_shmInv {r : Option Int} (h : wait s p = .ok (r, s')) (hinv : ShmInv s)
    (hp : s.canRun p) : ShmInv s' := by
  obtain ⟨q, page, d, m, m', c, hq, -, -, -, -, -, rfl⟩ | rfl | rfl := wait_cases h
  · obtain ⟨-, hzombie⟩ := zombieChild_eq_some hq
    have hfreed : ShmInv (s.setProc q (s.proc q).freed) :=
      hinv.setProc_none (fun i => hinv.zombie i hzombie) (fun i => if_pos (.inl rfl)) rfl
    exact hfreed.of_proc rfl rfl
  · exact hinv
  · refine hinv.of_same (.setProc ?_ rfl rfl)
    rcases hp with hp | hp <;> rw [hp] <;> rfl

/-! ## Getting a page -/

/-- A slot that a name finds is in use. -/
theorem ShmInv.in_use_of_named {name : Bytes} {cid : ℕ} (h : ShmInv s) (hname : strlen name ≠ 0)
    (hg : s.shmNamed name cid g = true) : (s.shm g).in_use = true := by
  by_contra hfree
  have hempty := h.unnamed g (by simpa using hfree)
  have hcmp := strncmp_of_cstr_eq_nil hempty hname
  simp [shmNamed, hcmp] at hg

theorem ShmGot.inv {name : Bytes} (h : ShmGot s p d name i s') (hinv : ShmInv s) (hp : s.canRun p)
    (hi : ((s.proc p).shared_mem i).in_use = false) (hname : strlen name ≠ 0)
    (hpage : (∃ g, s.shmNamed name (s.proc p).container_id g = true) ∨ s.km.free ≠ []) :
    ShmInv s' := by
  have hk : s.shmRef (p, i) = none := shmRef_of_free hi
  have hattach : ∀ (d' : Pgdir) (m : Kmem) (g : ShmIdx) (x : SharedMem),
      x.refcount = (s.shm g).refcount → x.in_use = true →
      ShmInv { (s.setProc p ((s.proc p).attached d' name i g)).setShm g
        (x.joined (s.proc p).container_id) with km := m } := by
    intro d' m g x hcount huse
    have href : (s.setProc p ((s.proc p).attached d' name i g)).shmRef =
        update s.shmRef (p, i) (some g) :=
      shmRef_setProc hp.live (Proc.attached_state ..) (Proc.attached_shared_mem ..)
    refine hinv.add hk hp.ne_zombie href rfl (setProc_field Proc.state (Proc.attached_state ..))
      (setProc_field Proc.ofile (Proc.attached_ofile ..)) ?_ huse
    have hlt := hinv.lt g
    rw [SharedMem.joined, hcount, uinc_of_lt (by omega)]
  cases h with
  | refused => exact hinv
  | noTable g d' m => exact hinv.of_same (.setVm s p d' m)
  | joined g d' m hg =>
    exact hattach d' m g _ rfl (hinv.in_use_of_named hname (shmNamed_of_findShm hg))
  | noPage g hg _ hfree =>
    obtain ⟨g', hg'⟩ | hpage := hpage
    · exact absurd hg' (List.find?_eq_none.mp hg g' (List.mem_finRange g'))
    · exact absurd hfree hpage
  | made g page free d' m => exact hattach d' m g _ rfl rfl

theorem shmGet_shmInv {name : Bytes} {r : Int} (h : shmGet s p name = .ok (r, s')) (hinv : ShmInv s)
    (hp : s.canRun p) (hi : ∃ i, ((s.proc p).shared_mem i).in_use = false)
    (hname : strlen name ≠ 0)
    (hpage : (∃ g, s.shmNamed name (s.proc p).container_id g = true) ∨ s.km.free ≠ []) :
    ShmInv s' := by
  obtain ⟨i, hi⟩ := freeShmem_of_exists hi
  obtain ⟨d, -, hgot⟩ := shmGet_cases h hi
  exact hgot.inv hinv hp (freeShmem_eq_some hi) hname hpage

/-! ## Fork -/

theorem shmRef_setShmem (hp : s.live p) (i : ShmIdx) (e : Shmem) :
    (s.setShmem p i e).shmRef =
      update s.shmRef (p, i) (if e.in_use then e.global_ptr else none) :=
  shmRef_setProc hp rfl rfl

theorem forkShmem_cases (h : forkShmem p np d s i = .ok s') :
    ∃ e : Shmem, e.in_use = ((s.proc p).shared_mem i).in_use ∧
      e.global_ptr = ((s.proc p).shared_mem i).global_ptr ∧
      ((∃ g, e.global_ptr = some g ∧ s' = (s.setShmem np i e).setShm g
          { s.shm g with refcount := uinc (s.shm g).refcount }) ∨
        (e.global_ptr = none ∧ ∃ mem, s' = (s.setShmem np i e).setMem mem)) := by
  let e : Shmem := { (s.proc p).shared_mem i with
    name := strncpy ((s.proc np).shared_mem i).name ((s.proc p).shared_mem i).name
      (strlen ((s.proc p).shared_mem i).name) }
  refine ⟨e, rfl, rfl, ?_⟩
  unfold forkShmem at h
  dsimp only at h
  split at h
  · rename_i g hg
    cases h
    exact .inl ⟨g, hg, rfl⟩
  · rename_i hnone
    obtain ⟨mem, -, h⟩ := bind_eq_ok.mp h
    cases h
    exact .inr ⟨hnone, mem, rfl⟩

theorem forkShmem_ref (h : forkShmem p np d s i = .ok s') (hp : s.live p) (hnp : s.live np) :
    s'.shmRef = update s.shmRef (np, i) (s.shmRef (p, i)) := by
  obtain ⟨e, huse, hptr, hs'⟩ := forkShmem_cases h
  have hset := shmRef_setShmem hnp i e
  have hentry : (if e.in_use then e.global_ptr else none) = s.shmRef (p, i) := by
    rw [huse, hptr]
    split_ifs with hi
    · exact (shmRef_of_in_use hp hi).symm
    · exact (shmRef_of_free (by simpa using hi)).symm
  rw [hentry] at hset
  obtain ⟨g, -, rfl⟩ | ⟨-, mem, rfl⟩ := hs'
  · exact hset
  · exact hset

/-- The parent's entry is copied to a child whose own is free. -/
theorem forkShmem_inv (h : forkShmem p np d s i = .ok s') (hinv : ShmInv s) (hp : s.live p)
    (hnp : s.live np) (hrun : (s.proc np).state ≠ .ZOMBIE) (hnone : s.shmRef (np, i) = none)
    (hstale : ((s.proc p).shared_mem i).in_use = false →
      ((s.proc p).shared_mem i).global_ptr = none) : ShmInv s' := by
  have href := forkShmem_ref h hp hnp
  have hstate := (forkShmem_rest h).state
  obtain ⟨e, -, hptr, ⟨g, hg, rfl⟩ | ⟨hnull, mem, rfl⟩⟩ := forkShmem_cases h
  · have hi : ((s.proc p).shared_mem i).in_use = true := by
      by_contra hfree
      have hnull := hstale (by simpa using hfree)
      rw [← hptr, hg] at hnull
      cases hnull
    have hk : s.shmRef (p, i) = some g := (shmRef_of_in_use hp hi).trans (hptr ▸ hg)
    rw [hk] at href
    have hlt := hinv.lt g
    have hin : (s.shm g).in_use = true := (hinv.use g).mpr (card_refs_pos hk)
    refine hinv.add hnone hrun href rfl hstate (setProc_field Proc.ofile rfl) ?_ hin
    exact uinc_of_lt (by omega)
  · have hk : s.shmRef (p, i) = none := by
      by_cases hi : ((s.proc p).shared_mem i).in_use = true
      · exact (shmRef_of_in_use hp hi).trans (hptr ▸ hnull)
      · exact shmRef_of_free (by simpa using hi)
    rw [hk, ← hnone, update_eq_self] at href
    exact hinv.of_ref href rfl (fun q hz => .inl ((hstate q).symm.trans hz))
      (setProc_field Proc.ofile rfl)

/-- The loop gives the child the references of its parent. -/
theorem forkShmRounds_inv {is : List ShmIdx} (h : forkShmRounds p np d is s = .ok s')
    (his : is.Nodup) (hinv : ShmInv s) (hne : p ≠ np) (hp : s.live p) (hnp : s.live np)
    (hrun : (s.proc np).state ≠ .ZOMBIE) (hnone : ∀ i ∈ is, s.shmRef (np, i) = none)
    (hstale : ∀ i, ((s.proc p).shared_mem i).in_use = false →
      ((s.proc p).shared_mem i).global_ptr = none) :
    ShmInv s' ∧ ∀ i, s'.shmRef (np, i) = if i ∈ is then s.shmRef (p, i) else s.shmRef (np, i) := by
  induction is generalizing s with
  | nil =>
    cases h
    exact ⟨hinv, fun i => (if_neg (by simp)).symm⟩
  | cons i is ih =>
    obtain ⟨s1, hround, hrest⟩ := bind_eq_ok.mp h
    obtain ⟨hi, his⟩ := List.nodup_cons.mp his
    have hinv1 := forkShmem_inv hround hinv hp hnp hrun (hnone i (by simp)) (hstale i)
    have href := forkShmem_ref hround hp hnp
    have hframe := forkShmem_rest hround
    have hp1 : s1.proc p = s.proc p := hframe.others p hne
    have hnone1 : ∀ j ∈ is, s1.shmRef (np, j) = none := by
      intro j hj
      rw [href, update_of_ne (by rintro ⟨⟩; exact hi hj)]
      exact hnone j (by simp [hj])
    have hlive : ∀ q, s.live q → s1.live q := fun q hq => by rwa [Kernel.live, hframe.state q]
    obtain ⟨hinv', hchild⟩ := ih hrest his hinv1 (hlive p hp) (hlive np hnp)
      (by rwa [hframe.state np]) hnone1 (by rwa [hp1])
    refine ⟨hinv', fun j => ?_⟩
    rw [hchild, href, update_of_ne (by simp [hne])]
    by_cases hj : j = i
    · subst hj
      rw [if_neg hi, if_pos (by simp), update_self]
    · rw [update_of_ne (by simpa using hj)]
      simp [hj]

/-- The child is filled in and becomes runnable: the references stay. -/
theorem ForkTail.inv (h : ForkTail p np s s') (hinv : ShmInv s) (hnp : s.live np) :
    ShmInv (s'.setProc np { s'.proc np with state := .RUNNABLE }) ∧
      (s'.setProc np { s'.proc np with state := .RUNNABLE }).shmRef = s.shmRef := by
  let x : Proc := { s'.proc np with state := .RUNNABLE }
  have hx : x.shmRef = (s.proc np).shmRef :=
    Proc.shmRef_of_live ProcState.noConfusion hnp h.shared_mem
  have href : (s'.setProc np x).shmRef = s.shmRef := by
    funext ⟨q, i⟩
    unfold Kernel.shmRef
    by_cases hq : q = np
    · rw [hq, setProc_self, hx]
    · rw [setProc_of_ne _ _ _ hq, h.others q hq]
  refine ⟨hinv.of_ref href h.shmEq (fun q hz => .inl ?_) fun q => ?_, href⟩
  · by_cases hq : q = np
    · rw [hq, setProc_self] at hz
      cases hz
    · rwa [setProc_of_ne _ _ _ hq, h.others q hq] at hz
  · by_cases hq : q = np
    · rw [hq, setProc_self]
      exact h.ofile (hinv.files p)
    · rw [setProc_of_ne _ _ _ hq, h.others q hq]

/-- `fork` by a process with this name does not count pointers of entries that are not in use. -/
def Kernel.noStale (s : Kernel) (p : PIdx) (name : Bytes) : Prop :=
  isCm name = true ∨ ∀ i, ((s.proc p).shared_mem i).in_use = false →
    ((s.proc p).shared_mem i).global_ptr = none

instance (s : Kernel) (p : PIdx) (name : Bytes) : Decidable (s.noStale p name) :=
  inferInstanceAs (Decidable (_ ∨ _))

theorem noStale_congr {name : Bytes} (h : (s'.proc p).shared_mem = (s.proc p).shared_mem) :
    s'.noStale p name ↔ s.noStale p name := by
  unfold noStale
  rw [h]

/-- A `fork` with a child, of a parent without stale pointers: the child has the references of its
parent, or none if that is the container manager. -/
theorem ForkOk.shmInv {s1 : Kernel} (h : ForkOk s1 p np d s') (hinv : ShmInv s1) (hp : s1.live p)
    (hstale : s1.noStale p (s1.proc p).name) :
    ShmInv s' ∧
      ∀ i, s'.shmRef (np, i) = if isCm (s1.proc p).name then none else s1.shmRef (p, i) := by
  obtain ⟨hunused, page, free, q, mem, d', m, -, -, -, hchild⟩ := h
  obtain ⟨s3, s4, hshm, htail, rfl⟩ := forkChild_cases hchild
  have hne : p ≠ np := fun heq => hp (heq ▸ hunused)
  -- The slot refers to nothing before, and its entries are not in use after `allocproc`.
  let y : Proc := (s1.proc np).forked s1.nextpid page d'
  have hy : ∀ i, y.shmRef i = none := fun i => if_pos (.inr rfl)
  let s2 : Kernel := { s1 with
    proc := update s1.proc np y, nextpid := s1.nextpid + 1, pq := q, km := m }
  have hnone1 : ∀ i, s1.shmRef (np, i) = none := fun i => if_pos (.inl hunused)
  have hslot : ShmInv (s1.setProc np y) := hinv.setProc_none hnone1 hy rfl
  have hinv2 : ShmInv s2 := hslot.of_proc rfl rfl
  have hself : s2.proc np = y := update_self ..
  have hp2 : s2.proc p = s1.proc p := update_of_ne hne ..
  let z : Proc := (s2.proc np).child (s2.proc p) p
  have hz : z.shmRef = y.shmRef := Proc.shmRef_congr (by rw [← hself]; rfl) (by rw [← hself]; rfl)
  have hnone2 : ∀ i, s2.shmRef (np, i) = none := fun i => by rw [Kernel.shmRef, hself, hy]
  have hinv3 : ShmInv (s2.setProc np z) :=
    hinv2.setProc_none hnone2 (fun i => (congrFun hz i).trans (hy i)) rfl
  have hstate : ((s2.setProc np z).proc np).state = .EMBRYO := by
    rw [setProc_self]
    show (s2.proc np).state = _
    rw [hself]
    rfl
  have hp3 : (s2.setProc np z).proc p = s1.proc p := by rw [setProc_of_ne _ _ _ hne, hp2]
  have hnone3 : ∀ i, (s2.setProc np z).shmRef (np, i) = none := fun i => by
    rw [Kernel.shmRef, setProc_self, hz, hy]
  have hnp3 : (s2.setProc np z).live np := by
    rw [Kernel.live, hstate]
    decide
  change forkShm (s2.setProc np z) p np d = .ok s3 at hshm
  have hfilled : ShmInv s3 ∧
      ∀ i, s3.shmRef (np, i) = if isCm (s1.proc p).name then none else s1.shmRef (p, i) := by
    unfold forkShm at hshm
    rw [hp3] at hshm
    split_ifs at hshm with hcm
    · cases hshm
      exact ⟨hinv3, fun i => by rw [if_pos hcm, hnone3]⟩
    · have hrounds := forkShmRounds_inv hshm (List.nodup_finRange _) hinv3 hne
        (by rwa [Kernel.live, hp3]) hnp3 (by rw [hstate]; decide) (fun i _ => hnone3 i)
        (by rw [hp3]; exact hstale.resolve_left hcm)
      refine ⟨hrounds.1, fun i => ?_⟩
      rw [hrounds.2, if_pos (List.mem_finRange i), if_neg hcm, Kernel.shmRef, hp3]
      rfl
  have hnp : s3.live np := by
    rw [Kernel.live, (forkShm_rest hshm).state np]
    exact hnp3
  obtain ⟨hinv', href⟩ := htail.inv hfilled.1 hnp
  refine ⟨hinv', fun i => ?_⟩
  rw [href]
  exact hfilled.2 i

theorem fork_shmInv {r : Int} (h : fork s p = .ok (r, s')) (hinv : ShmInv s) (hp : s.live p)
    (hstale : s.noStale p (s.proc p).name) : ShmInv s' := by
  obtain ⟨d, -, ⟨-, rfl, -⟩ | ⟨s1, hs1, hrest⟩⟩ := fork_cases h
  · exact hinv
  have hinv1 : ShmInv s1 := hinv.of_proc hs1.proc hs1.shm
  obtain ⟨-, hfailed⟩ | ⟨np, -, hok⟩ := hrest
  · obtain rfl | ⟨np, x, q, m, hunused, hx, hofile, rfl⟩ := hfailed.unused
    · exact hinv1
    · have hslot : ShmInv (s1.setProc np x) :=
        hinv1.setProc_none (fun i => if_pos (.inl hunused)) (fun i => if_pos (.inl hx)) hofile
      exact hslot.of_proc rfl rfl
  · have hstale1 : s1.noStale p (s1.proc p).name := by
      rw [hs1.proc]
      exact (noStale_congr (by rw [hs1.proc])).mpr hstale
    exact (hok.shmInv hinv1 (by rwa [Kernel.live, hs1.proc]) hstale1).1

theorem entered_shmSame {c : CIdx} {cwd : Option Slot} {cid : ℕ} {containers : CIdx → Container}
    {fs : Fs} {mem : Mem} : ShmSame s (s.entered p c cwd cid containers fs mem) := by
  have hset : ShmSame s (s.setProc p ((s.proc p).entered c cwd cid)) := .setProc rfl rfl rfl
  exact hset.trans (.of_proc rfl rfl)

theorem cmCreateAndEnter_shmInv {init fs : Bytes} {n r : Int}
    (h : cmCreateAndEnter s p init fs n = .ok (r, s')) (hinv : ShmInv s) (hp : s.live p)
    (hstale : s.noStale p (s.proc p).renamed.name) : ShmInv s' := by
  obtain rfl | ⟨c, cwd, cid, containers, fs, mem, r', s1, hfork, rfl⟩ := cmCreateAndEnter_cases h
  · exact hinv.of_same (.setProc rfl rfl rfl)
  have hentered : ShmSame s (s.entered p c cwd cid containers fs mem) := entered_shmSame
  have hinv1 : ShmInv s1 := by
    refine fork_shmInv hfork (hinv.of_same hentered) (entered_live hp) ?_
    rw [entered_self]
    exact (noStale_congr (hentered.shared_mem p)).mpr hstale
  exact hinv1.of_same (.setProc rfl rfl rfl)

/-! ## Runs -/

instance (s : Kernel) (p : PIdx) (name : Bytes) : Decidable (s.removesOwn p name) :=
  inferInstanceAs (Decidable (∀ _ _, _ → _ → _))

instance (s : Kernel) (p : PIdx) (i : ShmIdx) : Decidable (s.listed p i) :=
  inferInstanceAs (Decidable (_ ∧ _))

/-- `shm_get` has a name, a free entry to fill in, and a page to share or a free one. -/
def Kernel.canShare (s : Kernel) (p : PIdx) (name : Bytes) : Prop :=
  strlen name ≠ 0 ∧ (∃ i, ((s.proc p).shared_mem i).in_use = false) ∧
    ((∃ g, s.shmNamed name (s.proc p).container_id g = true) ∨ s.km.free ≠ [])

instance (s : Kernel) (p : PIdx) (name : Bytes) : Decidable (s.canShare p name) :=
  inferInstanceAs (Decidable (_ ∧ _))

/-- The calls that keep the counts right. The calls on files are left out. -/
def Kernel.shmOk (s : Kernel) (a : PIdx × Call) : Prop :=
  match a.2 with
  | .mGet name => s.canShare a.1 name
  | .mRem name => s.removesOwn a.1 name
  | .exit => ∀ i, ((s.proc a.1).shared_mem i).in_use = true → s.listed a.1 i
  | .fork => s.noStale a.1 (s.proc a.1).name
  | .cmCreateAndEnter .. => s.noStale a.1 (s.proc a.1).renamed.name
  | .other _ => False
  | _ => True

instance (s : Kernel) : (a : PIdx × Call) → Decidable (s.shmOk a)
  | (p, .mGet name) => inferInstanceAs (Decidable (s.canShare p name))
  | (p, .mRem name) => inferInstanceAs (Decidable (s.removesOwn p name))
  | (_, .exit) => inferInstanceAs (Decidable (∀ _, _ → _))
  | (p, .fork) => inferInstanceAs (Decidable (s.noStale p _))
  | (p, .cmCreateAndEnter ..) => inferInstanceAs (Decidable (s.noStale p _))
  | (_, .other _) => .isFalse id
  | (_, .wait) | (_, .kill _) | (_, .exec ..) | (_, .sbrk _) | (_, .cmMaxproc _)
  | (_, .cmSetroot ..)
  | (_, .mutexCreate _) | (_, .mutexDelete _) | (_, .prioSet ..) | (_, .store ..) => .isTrue trivial

theorem Call.run_shmInv {c : Call} (h : c.run s p = .ok s') (hp : s.canRun p)
    (hok : s.shmOk (p, c)) (hinv : ShmInv s) : ShmInv s' := by
  by_cases hmem : c.sparesMemory = true
  · exact hinv.of_same (.of_memSame (c.run_memSame h hmem))
  cases c.ran h with
  | kill | cmMaxproc | cmSetroot | mutexCreate | mutexDelete | prioSet | store =>
    exact absurd rfl hmem
  | fork h => exact fork_shmInv h hinv hp.live hok
  | exit h => exact exit_shmInv h hinv hp.live hok
  | wait h => exact wait_shmInv h hinv hp
  | exec h => exact hinv.of_same (exec_shmSame h)
  | sbrk h => exact hinv.of_same (growproc_shmSame h)
  | mGet h =>
    obtain ⟨hname, hi, hpage⟩ : s.canShare p _ := hok
    exact shmGet_shmInv h hinv hp hi hname hpage
  | mRem h => exact shmRem_inv h hinv hp.live hok
  | cmCreateAndEnter h => exact cmCreateAndEnter_shmInv h hinv hp.live hok
  | other o => exact hok.elim

theorem boot_shmInv (h : Boot s) : ShmInv s := by
  obtain ⟨b, code, p, page, free, mem, d0, d, m0, m, cwd, q, fs, -, -, -, -, -, hs⟩ := boot_cases h
  have hproc : ∀ q, s.proc q = .zero ∨ s.proc q = .first page d cwd := by
    intro q
    rw [hs]
    dsimp only
    rw [update_apply]
    split_ifs <;> simp
  have hnone : ∀ k, s.shmRef k = none := by
    intro k
    rw [Kernel.shmRef]
    rcases hproc k.1 with hk | hk <;> rw [hk] <;> rfl
  have hcard : ∀ g, (refs s.shmRef g).card = 0 :=
    fun g => card_refs_eq_zero.mpr fun k => by simp [hnone]
  have hshm : ∀ g, s.shm g = b.kernel.shm g := fun g => by rw [hs]
  refine ⟨fun g => ?_, fun g => ?_, fun g _ => ?_, fun i _ => hnone _, fun q fd => ?_⟩
  · rw [hshm, hcard]
    rfl
  · rw [hshm, hcard]
    exact ⟨nofun, nofun⟩
  · rw [hshm]
    rfl
  · rcases hproc q with hq | hq <;> rw [hq] <;> rfl

theorem reach_shmInv (h : kernelMachine.Reach Kernel.shmOk s) : ShmInv s :=
  h.invariant (fun _ => boot_shmInv) fun _ _ _ hinv hok hstep =>
    have ⟨hp, hrun⟩ := kernelMachine_step hstep
    Call.run_shmInv hrun hp hok hinv

end Dockv6
