import Dockv6.Vm.Ownership
import Dockv6.Vm.Shape

/-!
# The shape of address spaces

`copyuvm` panics over a page below the size that is missing; `sbrk` and `shm_get` panic over one
behind it that is there. `shm_rem` unmaps a page anywhere and takes one page off the size
(`hole_after_removal`), and `sbrk` to size `0` unmaps all pages and leaves the size.
-/

namespace Dockv6

open Kernel

variable {s s' : Kernel} {p np : PIdx} {i g : ShmIdx} {d d' : Pgdir} {m : Kmem}

/-- Every process has an image without holes, and no slot in two entries. -/
structure ImageInv (s : Kernel) : Prop where
  image : ∀ {p}, s.live p → ∃ d, (s.proc p).pgdir = some d ∧ d.Image (s.proc p).sz
  once : ∀ {p i j g}, s.shmRef (p, i) = some g → s.shmRef (p, j) = some g → i = j

namespace ImageInv

theorem of_pgdir (h : ImageInv s) (hp : s.live p) (hd : (s.proc p).pgdir = some d) :
    d.Image (s.proc p).sz := by
  obtain ⟨d', hd', himage⟩ := h.image hp
  cases hd.symm.trans hd'
  exact himage

/-- One process changes. -/
theorem update (h : ImageInv s) (hothers : ∀ q, q ≠ p → s'.proc q = s.proc q)
    (himage : s'.live p → ∃ d, (s'.proc p).pgdir = some d ∧ d.Image (s'.proc p).sz)
    (honce : ∀ {i j g}, s'.shmRef (p, i) = some g → s'.shmRef (p, j) = some g → i = j) :
    ImageInv s' where
  image {q} hq := by
    by_cases hqp : q = p
    · subst hqp
      exact himage hq
    · rw [Kernel.live, hothers q hqp] at hq
      rw [hothers q hqp]
      exact h.image hq
  once {q i j g} hi hj := by
    by_cases hqp : q = p
    · subst hqp
      exact honce hi hj
    · rw [Kernel.shmRef, hothers q hqp] at hi hj
      exact h.once hi hj

/-- The directory and the size of a process change. -/
theorem resized (h : ImageInv s) (hothers : ∀ q, q ≠ p → s'.proc q = s.proc q)
    (hstate : (s'.proc p).state = (s.proc p).state)
    (hmem : (s'.proc p).shared_mem = (s.proc p).shared_mem)
    (hpgdir : (s'.proc p).pgdir = some d) (himage : d.Image (s'.proc p).sz) : ImageInv s' := by
  refine h.update hothers (fun _ => ⟨d, hpgdir, himage⟩) fun {i j g} hi hj => ?_
  rw [Kernel.shmRef, Proc.shmRef, hstate, hmem] at hi hj
  exact h.once hi hj

end ImageInv

/-! ## Sizes -/

theorem pages_add (sz : ℕ) : pages (sz + PGSIZE) = pages sz + 1 := by
  unfold pages PGSIZE
  omega

theorem growproc_image {n r : Int} (h : growproc s p n = .ok (r, s')) (hinv : ImageInv s)
    (hp : s.live p) (hn : n < 0 → touint ((s.proc p).sz + n) ≠ 0) : ImageInv s' := by
  obtain ⟨d, sz, d', m, hd, hresize, rfl⟩ := growproc_cases h
  have hself : ∀ x, (s.withProc p x m).proc p = x := fun x => setProc_self s p x
  refine hinv.resized (d := d') (fun q hq => setProc_of_ne s p _ hq) ?_ ?_ ?_ ?_ <;> rw [hself]
  exact (resize_image (hinv.of_pgdir hp hd) hn).value hresize

theorem growproc_safe {n : Int} (hinv : ImageInv s) (hp : s.live p)
    (hn : n < 0 → touint ((s.proc p).sz + n) ≠ 0) : Safe Stop.holes (growproc s p n) := by
  obtain ⟨d, hd, himage⟩ := hinv.image hp
  unfold growproc
  rw [hd]
  exact (resize_image himage hn).bind fun _ _ => .ite (fun _ => .pure trivial) fun _ =>
    .pure trivial

/-! ## Shared pages -/

theorem ImageInv.attach {y : SharedMem} {name : Bytes} (hinv : ImageInv s) (hp : s.live p)
    (himage : d'.Shaped (pages (s.proc p).sz + 1)) (hlt : pages (s.proc p).sz < NUSERPAGES)
    (hg : ∀ j, s.shmRef (p, j) ≠ some g) :
    ImageInv { (s.setProc p ((s.proc p).attached d' name i g)).setShm g y with km := m } := by
  have hself : (s.setProc p ((s.proc p).attached d' name i g)).proc p =
      (s.proc p).attached d' name i g :=
    setProc_self ..
  have href : (s.setProc p ((s.proc p).attached d' name i g)).shmRef = Function.update s.shmRef
      (p, i) (some g) :=
    shmRef_setProc hp (Proc.attached_state ..) (Proc.attached_shared_mem ..)
  refine hinv.update (p := p) (fun q hq => setProc_of_ne s p _ hq)
    (fun _ => ⟨d', ?_, ?_⟩) fun {j k g'} hj hk => ?_
  · exact congrArg Proc.pgdir hself
  · have hsz : ((s.setProc p ((s.proc p).attached d' name i g)).proc p).sz = (s.proc p).sz +
        PGSIZE := by
      rw [hself]
      refine Nat.mod_eq_of_lt ?_
      unfold pages NUSERPAGES KERNBASE PGSIZE at hlt
      unfold PGSIZE
      omega
    show d'.Image ((s.setProc p ((s.proc p).attached d' name i g)).proc p).sz
    rw [hsz]
    exact ⟨by rwa [pages_add], by rw [pages_add]; exact hlt⟩
  · have hj : Function.update s.shmRef (p, i) (some g) (p, j) = some g' := href ▸ hj
    have hk : Function.update s.shmRef (p, i) (some g) (p, k) = some g' := href ▸ hk
    rw [Function.update_apply] at hj hk
    split_ifs at hj hk with hji hki hki
    · exact (congrArg Prod.snd hji).trans (congrArg Prod.snd hki).symm
    · cases hj
      exact absurd hk (hg k)
    · cases hk
      exact absurd hj (hg j)
    · exact hinv.once hj hk

/-- A process that does not have the page that it asks for, and has room behind its image. -/
def Kernel.getsBehind (s : Kernel) (p : PIdx) (name : Bytes) : Prop :=
  pages (s.proc p).sz < NUSERPAGES ∧
    ∀ g, s.findShm name (s.proc p).container_id = some g → ∀ i, s.shmRef (p, i) ≠ some g

theorem ShmGot.image {name : Bytes} (h : ShmGot s p d name i s') (hinv : ImageInv s)
    (hshm : ShmInv s)
    (hp : s.live p) (hd : (s.proc p).pgdir = some d) (hclear : s.getsBehind p name) :
    ImageInv s' := by
  obtain ⟨hlt, hnew⟩ := hclear
  have himage := hinv.of_pgdir hp hd
  cases h with
  | refused => exact hinv
  | noTable g d1 m hmap =>
    rw [mappages_page] at hmap
    have hsame := ((mapPage_shaped himage.shaped hlt).value hmap).1
    have hself : ((s.setVm p d1 m).proc p) = { s.proc p with pgdir := some d1 } := setProc_self ..
    refine hinv.resized (d := d1) (fun q hq => setProc_of_ne s p _ hq) ?_ ?_ ?_ ?_ <;> rw [hself]
    exact ⟨hsame, himage.le⟩
  | joined g d1 m hg hmap =>
    rw [mappages_page] at hmap
    exact hinv.attach hp ((mapPage_shaped himage.shaped hlt).value hmap).1 hlt (hnew g hg)
  | noPage g => exact ⟨hinv.image, hinv.once⟩
  | made g page free d1 m hg hfree hcons hlen hmap =>
    rw [mappages_page] at hmap
    refine hinv.attach hp ((mapPage_shaped himage.shaped hlt).value hmap).1 hlt fun j hj => ?_
    have hpos := hshm.refcount_pos hj
    rw [hshm.unreferenced (freeShm_eq_some hfree)] at hpos
    exact absurd hpos (Nat.lt_irrefl 0)

theorem shmGet_image {name : Bytes} {r : Int} (h : shmGet s p name = .ok (r, s'))
    (hinv : ImageInv s) (hshm : ShmInv s) (hp : s.live p) (hshare : s.canShare p name)
    (hclear : s.getsBehind p name) : ImageInv s' := by
  obtain ⟨i, hi⟩ := freeShmem_of_exists hshare.2.1
  obtain ⟨d, hd, hgot⟩ := shmGet_cases h hi
  exact hgot.image hinv hshm hp hd hclear

theorem shmGet_safe {name : Bytes} (hinv : ImageInv s) (hp : s.live p)
    (hlt : pages (s.proc p).sz < NUSERPAGES) : Safe Stop.holes (shmGet s p name) := by
  obtain ⟨d, hd, himage⟩ := hinv.image hp
  have hmap : ∀ m pa, Safe Stop.holes
      (mappages d m (pages (s.proc p).sz * PGSIZE) PGSIZE pa (PTE_W ||| PTE_U)) := by
    intro m pa
    rw [mappages_page]
    exact (mapPage_shaped himage.shaped hlt).safe
  unfold shmGet
  rw [hd]
  refine strncmpUser_safe.bind fun _ _ => .ite (fun _ => .pure trivial) fun _ => ?_
  refine .ite (fun _ => .pure trivial) fun _ => ?_
  split
  · exact (hmap _ _).bind fun _ _ => .ite (fun _ => shmAttach_safe) fun _ => .pure trivial
  split
  · exact .pure trivial
  · rename_i g _
    unfold shmNew
    dsimp only
    split
    · exact .pure trivial
    · refine (hmap _ _).bind fun _ _ => .ite (fun _ => .throw (by decide)) fun _ => ?_
      exact .ite (fun _ => .throw (by decide)) fun _ => shmAttach_safe

/-- The entry that is removed is for the last page of the image. -/
def Kernel.removesLast (s : Kernel) (p : PIdx) (name : Bytes) : Prop :=
  ∀ g i, s.findShm name (s.proc p).container_id = some g → s.findShmem p name = some i →
    ((s.proc p).shared_mem i).va / PGSIZE + 1 = pages (s.proc p).sz ∧ PGSIZE ≤ (s.proc p).sz

theorem shmRem_image {name : Bytes} {r : Int} (h : shmRem s p name = .ok (r, s'))
    (hinv : ImageInv s) (hp : s.live p) (hlast : s.removesLast p name) : ImageInv s' := by
  obtain ⟨rfl, -⟩ | ⟨g, i, d, hg, hi, hd, -, hrem⟩ := shmRem_cases h
  · exact hinv
  obtain ⟨hva, hsz⟩ := hlast g i hg hi
  have himage := hinv.of_pgdir hp hd
  have hself : s'.proc p = (s.proc p).detached d i := by rw [hrem.proc, Function.update_self]
  have hshrunk : pages ((s.proc p).sz - PGSIZE) + 1 = pages (s.proc p).sz := by
    rw [← pages_add, Nat.sub_add_cancel hsz]
  have hsz' : (s'.proc p).sz = (s.proc p).sz - PGSIZE := by
    rw [hself]
    show ((s.proc p).sz + 2 ^ 32 - PGSIZE) % 2 ^ 32 = _
    have hle := himage.le
    unfold pages NUSERPAGES KERNBASE PGSIZE at hle
    unfold PGSIZE at hsz ⊢
    omega
  have hpop : (d.setPte (((s.proc p).shared_mem i).va / PGSIZE) none).Shaped
      (pages ((s.proc p).sz - PGSIZE)) := by
    have hpage : ((s.proc p).shared_mem i).va / PGSIZE = pages ((s.proc p).sz - PGSIZE) := by omega
    have hshaped := himage.shaped
    rw [← hshrunk] at hshaped
    rw [hpage]
    exact hshaped.pop
  have hpgdir : (s'.proc p).pgdir =
      some (d.setPte (((s.proc p).shared_mem i).va / PGSIZE) none) := by
    rw [hself, Proc.detached_pgdir]
  refine hinv.update (fun q hq => hrem.entryOnly.others q hq)
    (fun _ => ⟨_, hpgdir, ?_⟩) fun {j k g'} hj hk => ?_
  · rw [hsz']
    exact ⟨hpop, by have := himage.le; omega⟩
  · rw [hrem.ref hp, Function.update_apply] at hj hk
    split_ifs at hj hk
    exact hinv.once hj hk

/-! ## Fork -/

theorem ImageInv.of_proc (h : ImageInv s) (hproc : s'.proc = s.proc) : ImageInv s' := by
  refine ⟨fun {p} hp => ?_, fun {p i j g} hi hj => ?_⟩
  · rw [Kernel.live, hproc] at hp
    rw [hproc]
    exact h.image hp
  · rw [Kernel.shmRef, hproc] at hi hj
    exact h.once hi hj

/-- What the copy of the image of `p`, with the directory `d`, rests on. -/
structure Copyable (s : Kernel) (p : PIdx) (d : Pgdir) : Prop where
  image : ImageInv s
  pages : PageInv s
  shm : ShmInv s
  live : s.live p
  pgdir : (s.proc p).pgdir = some d
  stale : s.noStale p (s.proc p).name
  whole : s.forksWhole p (s.proc p).name
  cm : isCm (s.proc p).name = false

namespace Copyable

variable {s1 : Kernel}

theorem charge (h : Copyable s p d) (hs1 : Charged s p s1) : Copyable s1 p d where
  image := h.image.of_proc hs1.proc
  pages := h.pages.of_same (.of_proc hs1.proc hs1.shm (by rw [hs1.km]))
  shm := h.shm.of_proc hs1.proc hs1.shm
  live := by
    rw [Kernel.live, hs1.proc]
    exact h.live
  pgdir := by
    rw [hs1.proc]
    exact h.pgdir
  stale := by
    rw [hs1.proc]
    exact (noStale_congr (by rw [hs1.proc])).mpr h.stale
  whole := by
    unfold Kernel.forksWhole
    rw [hs1.proc, hs1.km]
    exact h.whole
  cm := by
    rw [hs1.proc]
    exact h.cm

/-- A mapped page that belongs to a slot of the process is where the entry for the slot says. -/
theorem held (h : Copyable s p d) {w : ℕ} {e : Pte} {a : ℕ × ℕ} (he : d.pte w = some e)
    (ha : a ∈ s.heldPages p) (hpa : a.1 = e.ppn * PGSIZE) : a.2 = w * PGSIZE := by
  obtain ⟨i, g, hi, rfl⟩ := mem_heldPages h.live ha
  have hppn : (s.shm g).pa / PGSIZE = e.ppn := by
    have hpa : (s.shm g).pa = e.ppn * PGSIZE := hpa
    rw [hpa]
    exact Nat.mul_div_cancel e.ppn (by decide)
  have hpos := h.shm.refcount_pos hi
  obtain ⟨j, g', hj, rfl, hx⟩ := h.pages.backed h.live h.pgdir w e he ⟨g, hpos, hppn⟩
  obtain rfl : g = g' := h.pages.slot_unique hpos (h.shm.refcount_pos hj) (hppn.trans hx.symm)
  obtain rfl : i = j := h.image.once hi hj
  exact (Nat.div_mul_cancel (Nat.dvd_of_mod_eq_zero (h.pages.aligned hi))).symm

theorem copy {page : ℕ} {free : List ℕ} {q : Pqueue} {mem : Mem} (h : Copyable s p d)
    (hnp : (s.proc np).state = .UNUSED) (hfree : s.km.free = page :: free) :
    Ensures Stop.holes (copyuvm (s.stacked np page free q mem) p d (s.proc p).sz) fun (r, _) =>
      ∀ d', r = some d' → d'.Image (s.proc p).sz := by
  have hne : p ≠ np := fun heq => h.live (heq ▸ hnp)
  have hparent : (s.stacked np page free q mem).proc p = s.proc p := Function.update_of_ne hne ..
  have hheld : (s.stacked np page free q mem).heldPages p = s.heldPages p := by
    unfold Kernel.heldPages
    rw [hparent]
    rfl
  refine copyuvm_image (h.image.of_pgdir h.live h.pgdir)
    (by rw [hparent]; exact h.cm) ?_ ?_ <;> rw [hheld]
  · exact fun w e a => h.held
  · obtain hcm | hclear | hlen := h.whole
    · cases h.cm.symm.trans hcm
    · exact .inl (heldPages_of_unused hclear)
    · rw [hfree, List.length_cons] at hlen
      exact .inr (by show _ ≤ free.length; omega)

end Copyable

theorem ForkOk.image {s1 : Kernel} (h : ForkOk s1 p np d s') (hcopy : Copyable s1 p d) :
    ImageInv s' := by
  obtain ⟨-, hchild⟩ := h.shmInv hcopy.shm hcopy.live hcopy.stale
  obtain ⟨page, free, q, mem, d', m, hfree, hrun, -, hpgdir, hsz, -⟩ := h.memory hcopy.live
  have himage := (hcopy.copy h.unused hfree).value hrun d' rfl
  refine hcopy.image.update (h.made hcopy.live).others
    (fun _ => ⟨d', hpgdir, hsz ▸ himage⟩) fun {i j g} hi hj => ?_
  rw [hchild, if_neg (by simp [hcopy.cm])] at hi hj
  exact hcopy.image.once hi hj

/-- A `fork` that fails leaves the processes as they are. -/
theorem ForkFailed.image {s1 : Kernel} (h : ForkFailed s1 p d s') (hinv : ImageInv s1) :
    ImageInv s' := by
  obtain rfl | ⟨np, x, q, m, hunused, hx, -, rfl⟩ := h.unused
  · exact hinv
  have hdead : ∀ {y : Kernel}, y.proc np = x → ¬ y.live np := fun hy hlive => hlive (hy ▸ hx)
  refine hinv.update (p := np) (fun q hq => Function.update_of_ne hq ..)
    (fun hlive => ?_) fun hi _ => ?_
  · exact absurd hlive (hdead (Function.update_self ..))
  · exact absurd (live_of_shmRef hi) (hdead (Function.update_self ..))

theorem fork_image {r : Int} (h : fork s p = .ok (r, s')) (hcopy : Copyable s p d) :
    ImageInv s' := by
  obtain ⟨d', hd', ⟨-, rfl, -⟩ | ⟨s1, hs1, hrest⟩⟩ := fork_cases h
  · exact hcopy.image
  cases hcopy.pgdir.symm.trans hd'
  obtain ⟨-, hfailed⟩ | ⟨np, -, hok⟩ := hrest
  · exact hfailed.image (hcopy.charge hs1).image
  · exact hok.image (hcopy.charge hs1)

theorem fork_safe (hcopy : Copyable s p d) : Safe Stop.holes (fork s p) := by
  have hcharge : Ensures Stop.holes (forkCharge s p) fun r => ∀ s1, r = some s1 →
      Charged s p s1 := by
    refine ⟨fun hr s1 hs1 => ?_, forkCharge_safe.stop⟩
    subst hs1
    obtain ⟨hnone, -⟩ | ⟨s2, hs2, hcharged⟩ := forkCharge_cases hr
    · cases hnone
    · cases hs2
      exact hcharged
  unfold fork
  rw [hcopy.pgdir]
  refine hcharge.bind fun r hr => ?_
  rcases r with _ | s1
  · exact .pure trivial
  have hcopy1 := hcopy.charge (hr s1 rfl)
  have halloc : Ensures Stop.holes (allocproc s1 d (s1.pq.priority p)) fun r =>
    ∀ np, r.1 = some np →
      ∃ page free q mem, (s1.proc np).state = .UNUSED ∧ s1.km.free = page :: free ∧
        r.2 = s1.stacked np page free q mem := by
    refine ⟨fun {r} hrun np hslot => ?_, allocproc_safe.stop⟩
    obtain ⟨hnone, -⟩ | ⟨np', q, mem, htaken, ⟨hnone, -⟩ | ⟨page, free, hsome, hfree, hs2⟩⟩ :=
      allocproc_cases hrun
    · cases hslot.symm.trans hnone
    · cases hslot.symm.trans hnone
    · cases hslot.symm.trans hsome
      exact ⟨page, free, q, mem, htaken.unused, hfree, hs2⟩
  refine halloc.bind ?_
  rintro ⟨slot, s2⟩ hs2
  rcases slot with _ | np
  · exact .pure trivial
  obtain ⟨page, free, q, mem, hunused, hfree, rfl⟩ := hs2 np rfl
  have hne : p ≠ np := fun heq => hcopy1.live (heq ▸ hunused)
  have hsz : ((s1.stacked np page free q mem).proc p).sz = (s1.proc p).sz :=
    congrArg Proc.sz (Function.update_of_ne hne ..)
  dsimp only
  rw [hsz]
  refine (hcopy1.copy hunused hfree).bind ?_
  rintro ⟨d', m⟩ _
  rcases d' with _ | d'
  · dsimp only
    split
    · exact .throw (by decide)
    · exact (kfree_safe _ _).bind fun _ _ => .pure trivial
  · exact forkChild_safe.bind fun _ _ => .pure trivial

/-! ## Runs -/

/-- The kernel when the first process is ready to run, with memory left. -/
def bootWithMemory (s : Kernel) : Prop := Boot s ∧ s.km.free ≠ []

/-- The machine of the kernel, started with memory left. -/
def imageMachine : Machine Kernel (PIdx × Call) := { kernelMachine with init := bootWithMemory }

/-- The first page is mapped if a page was left for its page table. -/
theorem inituvm_shaped {m' : Kmem} {code : Bytes} (h : inituvm d m code = .ok (d', m'))
    (hd : d.Shaped 0) (hm' : m'.free ≠ []) : d'.Shaped 1 := by
  unfold inituvm at h
  split_ifs at h
  split at h
  · cases h
  · rename_i page m1 hk
    obtain ⟨⟨ok, d2, m2⟩, hmap, h⟩ := bind_eq_ok.mp h
    rw [← Nat.zero_mul PGSIZE, mappages_page] at hmap
    cases h
    obtain ⟨-, -, ⟨-, -, rfl, hnone⟩ | ⟨rfl, -⟩⟩ := mapPage_cases hmap
    · exact absurd hnone hm'
    · exact ((mapPage_shaped hd (by decide)).value hmap).1

theorem boot_image (h : bootWithMemory s) : ImageInv s := by
  obtain ⟨hboot, hfree⟩ := h
  obtain ⟨b, code, p, page, free, mem, d0, d, m0, m, cwd, q, fs, -, -, hkvm, huvm, -, rfl⟩ :=
    boot_cases hboot
  have hshaped : d.Shaped 1 := inituvm_shaped huvm (setupkvm_shaped.value hkvm d0 rfl) hfree
  have hone : pages (Proc.first page d cwd).sz = 1 := by
    show pages PGSIZE = 1
    decide
  have hzero : ∀ q, q ≠ p → (Function.update (fun _ => Proc.zero) p (.first page d cwd) q).state =
      .UNUSED := by
    intro q hq
    rw [Function.update_of_ne hq]
    rfl
  refine ⟨fun {q} hq => ?_, fun {q i j g} hi => ?_⟩
  · by_cases hqp : q = p
    · subst hqp
      dsimp only
      rw [Function.update_self]
      exact ⟨d, rfl, hone ▸ hshaped, hone ▸ by decide⟩
    · exact absurd (hzero q hqp) hq
  · have hlive := live_of_shmRef hi
    by_cases hqp : q = p
    · subst hqp
      rw [Kernel.shmRef] at hi
      dsimp only at hi
      rw [Function.update_self] at hi
      cases hi
    · exact absurd (hzero q hqp) hlive

/-- The calls that keep images without holes. -/
def Kernel.shapeClear (s : Kernel) (a : PIdx × Call) : Prop :=
  match a.2 with
  | .sbrk n => n < 0 → touint ((s.proc a.1).sz + n) ≠ 0
  | .mGet name => s.getsBehind a.1 name
  | .mRem name => s.removesLast a.1 name
  | .fork => isCm (s.proc a.1).name = false
  | _ => False

instance (s : Kernel) (p : PIdx) (name : Bytes) : Decidable (s.getsBehind p name) :=
  inferInstanceAs (Decidable (_ ∧ ∀ _, _ → ∀ _, _))

instance (s : Kernel) (p : PIdx) (name : Bytes) : Decidable (s.removesLast p name) :=
  inferInstanceAs (Decidable (∀ _ _, _ → _ → _))

instance (s : Kernel) : (a : PIdx × Call) → Decidable (s.shapeClear a)
  | (_, .sbrk _) => inferInstanceAs (Decidable (_ → _))
  | (p, .mGet name) => inferInstanceAs (Decidable (s.getsBehind p name))
  | (p, .mRem name) => inferInstanceAs (Decidable (s.removesLast p name))
  | (p, .fork) => inferInstanceAs (Decidable (isCm (s.proc p).name = false))
  | (_, .exit) | (_, .wait) | (_, .kill _) | (_, .exec ..) | (_, .cmCreateAndEnter ..)
  | (_, .cmMaxproc _)
  | (_, .cmSetroot ..) | (_, .mutexCreate _) | (_, .mutexDelete _) | (_, .prioSet ..)
  | (_, .store ..) | (_, .other _) => .isFalse id

/-- The calls of `sbrk`, `shm_get`, `shm_rem` and `fork` that keep the owners of pages apart and
images without holes. -/
def Kernel.shapeOk (s : Kernel) (a : PIdx × Call) : Prop := s.pagesOk a ∧ s.shapeClear a

instance (s : Kernel) (a : PIdx × Call) : Decidable (s.shapeOk a) :=
  inferInstanceAs (Decidable (_ ∧ _))

theorem Call.run_image {c : Call} (h : c.run s p = .ok s') (hp : s.canRun p)
    (hok : s.shapeOk (p, c))
    (hshm : ShmInv s) (hpages : PageInv s) (hinv : ImageInv s) : ImageInv s' := by
  obtain ⟨⟨hshmOk, hpagesClear⟩, hclear⟩ := hok
  cases c.ran h with
  | fork h =>
    obtain ⟨d, hd, -⟩ := hinv.image hp.live
    exact fork_image h ⟨hinv, hpages, hshm, hp.live, hd, hshmOk, hpagesClear, hclear⟩
  | sbrk h => exact growproc_image h hinv hp.live hclear
  | mGet h => exact shmGet_image h hinv hshm hp.live hshmOk hclear
  | mRem h => exact shmRem_image h hinv hp.live hclear
  | exit | wait | kill | exec | cmCreateAndEnter | cmMaxproc | cmSetroot | mutexCreate | mutexDelete
  | prioSet | store | other => exact hclear.elim

theorem map_snd_safe {α : Type} {x : Res (α × Kernel)} (h : Safe Stop.holes x) :
    Safe Stop.holes (x.map Prod.snd) := by
  cases x with
  | error e => exact .throw (h.stop rfl)
  | ok a => exact .pure trivial

theorem Call.run_safe {c : Call} (hp : s.canRun p) (hok : s.shapeOk (p, c)) (hshm : ShmInv s)
    (hpages : PageInv s) (hinv : ImageInv s) : Safe Stop.holes (c.run s p) := by
  obtain ⟨⟨hshmOk, hpagesClear⟩, hclear⟩ := hok
  cases c with
  | fork =>
    obtain ⟨d, hd, -⟩ := hinv.image hp.live
    exact map_snd_safe (fork_safe ⟨hinv, hpages, hshm, hp.live, hd, hshmOk, hpagesClear, hclear⟩)
  | sbrk n => exact map_snd_safe (growproc_safe hinv hp.live hclear)
  | mGet name => exact map_snd_safe (shmGet_safe hinv hp.live hclear.1)
  | mRem name => exact map_snd_safe shmRem_safe
  | exit | wait | kill | exec | cmCreateAndEnter | cmMaxproc | cmSetroot | mutexCreate | mutexDelete
  | prioSet | store | other => exact hclear.elim

theorem reach_image (h : imageMachine.Reach Kernel.shapeOk s) : ShmInv s ∧ PageInv s ∧ ImageInv s :=
  h.invariant (I := fun s => ShmInv s ∧ PageInv s ∧ ImageInv s)
    (fun _ hboot => ⟨boot_shmInv hboot.1, boot_pageInv hboot.1, boot_image hboot⟩)
    fun _ _ _ ⟨hshm, hpages, hinv⟩ hok hstep =>
      have ⟨hp, hrun⟩ := kernelMachine_step hstep
      ⟨Call.run_shmInv hrun hp hok.1.1 hshm, Call.run_pageInv hrun hp hok.1 hshm hpages,
        Call.run_image hrun hp hok hshm hpages hinv⟩

/-- The pages at and above an address and the size. -/
theorem lt_pages_iff {va sz : ℕ} (hva : va % PGSIZE = 0) : va / PGSIZE < pages sz ↔ va < sz := by
  unfold pages PGSIZE at *
  omega

/-- **The shape of address spaces.** In every run in which the owners of pages stay apart, shared
pages are not got twice by a process and removed from the end of its image, and no process shrinks
to nothing, the pages below the size and no others are mapped, and no call panics over a page that
is mapped already or missing. -/
theorem address_space_shape (h : imageMachine.Reach Kernel.shapeOk s) :
    (∀ p, s.live p → ∃ d, (s.proc p).pgdir = some d ∧ ∀ va < KERNBASE, va % PGSIZE = 0 →
      ((d.pte (va / PGSIZE)).isSome = true ↔ va < (s.proc p).sz)) ∧
    ∀ p c e, s.canRun p → s.shapeOk (p, c) → c.run s p = .error e → ¬ e.holes := by
  obtain ⟨hshm, hpages, hinv⟩ := reach_image h
  refine ⟨fun p hp => ?_, fun p c e hp hok he => (Call.run_safe hp hok hshm hpages hinv).stop he⟩
  obtain ⟨d, hd, himage⟩ := hinv.image hp
  exact ⟨d, hd, fun va _ hva => (himage.shaped _).trans (lt_pages_iff hva)⟩

set_option maxRecDepth 100000 in
theorem bootWithMemory_of_smallBoot (h : smallBoot = .ok s) : bootWithMemory s := by
  have hleft : smallBoot.toOption.all (fun s => s.km.free ≠ []) = true := by decide +kernel
  rw [h] at hleft
  exact ⟨boot_of_smallBoot h, of_decide_eq_true hleft⟩

set_option maxRecDepth 100000 in
/-- The first process gets a shared page and forks; its child has two pages. -/
theorem address_space_shape_fork : ∃ s, imageMachine.Reach Kernel.shapeOk s ∧ s.live 1 ∧
    (s.proc 1).sz = 2 * PGSIZE ∧ ∃ d, (s.proc 1).pgdir = some d ∧ ∀ va < KERNBASE, va % PGSIZE = 0 →
      ((d.pte (va / PGSIZE)).isSome = true ↔ va < 2 * PGSIZE) := by
  have hrun : (smallBoot.toOption.bind fun s =>
    (imageMachine.restrict fun s a => decide (s.shapeOk a)).exec s
      [(0, .mGet [97]), (0, .fork)]).any
      (fun s => decide (s.live 1 ∧ (s.proc 1).sz = 2 * PGSIZE)) = true := by
    decide +kernel
  obtain ⟨s, hs, hP⟩ := exists_of_small (M := imageMachine)
    (fun _ => bootWithMemory_of_smallBoot) (fun _ _ h => of_decide_eq_true h) hrun
  obtain ⟨hlive, hsz⟩ := of_decide_eq_true hP
  have hshape := (address_space_shape hs).1 1 hlive
  rw [hsz] at hshape
  exact ⟨s, hs, hlive, hsz, hshape⟩

set_option maxRecDepth 100000 in
/-- Two pages are got and the first of them is removed: the page below the size is missing, and the
one above it is still mapped. -/
theorem hole_after_removal : ∃ s, imageMachine.Reachable s ∧ s.live 0 ∧
    ∃ d, (s.proc 0).pgdir = some d ∧
      PGSIZE < (s.proc 0).sz ∧ d.pte 1 = none ∧ (s.proc 0).sz ≤ 2 * PGSIZE ∧ d.pte 2 ≠ none := by
  have hrun : (smallBoot.toOption.bind fun s => (imageMachine.restrict fun _ _ => true).exec s
      [(0, .mGet [97]), (0, .mGet [98]), (0, .mRem [97])]).any
      (fun s => decide (s.live 0) && (s.proc 0).pgdir.any fun d =>
        decide (PGSIZE < (s.proc 0).sz ∧ d.pte 1 = none ∧
        (s.proc 0).sz ≤ 2 * PGSIZE ∧ d.pte 2 ≠ none)) = true := by
    decide +kernel
  obtain ⟨s, hs, hP⟩ := exists_of_small (M := imageMachine)
    (fun _ => bootWithMemory_of_smallBoot) (fun _ _ _ => trivial) hrun
  obtain ⟨hlive, hany⟩ := (Bool.and_eq_true _ _).mp hP
  obtain ⟨d, hd, hhole⟩ := (Option.any_eq_true _ _).mp hany
  exact ⟨s, hs, of_decide_eq_true hlive, d, hd, of_decide_eq_true hhole⟩

end Dockv6
