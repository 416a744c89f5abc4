import Dockv6.Kernel.Frame
import Dockv6.Kernel.SysCall
import Dockv6.Vm.Ownership

/-!
# Pages of memory

Whatever the calls do to each other's pages, the free list has pages of the memory that `kinit` was
given, and a slot of `shm_list` with a name has the address of such a page: a page gets onto the
list through the test of `kfree` only, and a slot gets its page from `kalloc`.
-/

namespace Dockv6

open Kernel

/-- A page that `kfree` accepts. -/
def Kmem.isPage (m : Kmem) (f : ℕ) : Prop := m.first ≤ f ∧ f < PHYSTOP / PGSIZE

/-- The same memory, with free pages that are pages of it if they were before. -/
structure Kmem.Keeps (m m' : Kmem) : Prop where
  first : m'.first = m.first
  free : (∀ f ∈ m.free, m.isPage f) → ∀ f ∈ m'.free, m.isPage f

section Keeps

variable {m m' m1 : Kmem} {d d' : Pgdir} {page v pa perm sz n oldsz newsz : ℕ} {ok : Bool}

namespace Kmem.Keeps

theorem refl (m : Kmem) : m.Keeps m := ⟨rfl, id⟩

theorem trans (h : m.Keeps m1) (h' : m1.Keeps m') : m.Keeps m' where
  first := h'.first.trans h.first
  free hm f hf := by
    have hpage : ∀ f, m1.isPage f ↔ m.isPage f := fun f => by rw [isPage, isPage, h.first]
    refine (hpage f).mp (h'.free (fun f hf => ?_) f hf)
    exact (hpage f).mpr (h.free hm f hf)

theorem of_subset (hfirst : m'.first = m.first) (h : m'.free ⊆ m.free) : m.Keeps m' :=
  ⟨hfirst, fun hm f hf => hm f (h hf)⟩

theorem setMem (m : Kmem) (mem : Mem) : m.Keeps { m with mem := mem } := .of_subset rfl fun _ => id

theorem zero (m : Kmem) (page : ℕ) : m.Keeps (m.zero page) := .of_subset rfl fun _ => id

/-- The first free page is taken. -/
theorem taken {free : List ℕ} (h : m.free = page :: free) (mem : Mem) :
    m.Keeps { m with free := free, mem := mem } := by
  refine .of_subset rfl ?_
  rw [h]
  exact List.subset_cons_self page free

theorem kalloc (h : kalloc m = some (page, m')) : m.Keeps m' := by
  obtain ⟨hfree, hm'⟩ := kalloc_eq_some h
  rw [hm']
  exact taken hfree m.mem

theorem kfree (h : kfree m page = .ok m') : m.Keeps m' := by
  obtain ⟨hlo, hhi, rfl⟩ := kfree_eq_ok h
  refine ⟨rfl, fun hm f hf => ?_⟩
  obtain rfl | hf := List.mem_cons.mp hf
  · exact ⟨hlo, hhi⟩
  · exact hm f hf

end Kmem.Keeps

theorem mapPage_keeps (h : mapPage d m v pa perm = .ok (ok, d', m')) : m.Keeps m' := by
  obtain ⟨-, -, ⟨-, -, rfl, -⟩ | ⟨-, d1, htabled, -⟩⟩ := mapPage_cases h
  · exact .refl _
  · cases htabled with
    | present => exact .refl _
    | added page free _ hfree => exact .taken hfree _

theorem mapRounds_keeps (h : mapRounds n d m v pa perm = .ok (ok, d', m')) : m.Keeps m' := by
  induction n generalizing d m v pa with
  | zero =>
    cases h
    exact .refl _
  | succ n ih =>
    obtain ⟨⟨ok1, d1, m1⟩, hmap, hrest⟩ := bind_eq_ok.mp h
    dsimp only at hrest
    split_ifs at hrest
    · exact (mapPage_keeps hmap).trans (ih hrest)
    · cases hrest
      exact mapPage_keeps hmap

theorem mappages_keeps {va size : ℕ} (h : mappages d m va size pa perm = .ok (ok, d', m')) :
    m.Keeps m' :=
  mapRounds_keeps h

theorem deallocRounds_keeps {hi : ℕ} (h : deallocRounds n d m v hi = .ok (d', m')) :
    m.Keeps m' := by
  induction n generalizing d m v with
  | zero =>
    cases h
    exact .refl _
  | succ n ih =>
    rw [deallocRounds] at h
    split_ifs at h
    · split at h
      · exact ih h
      · split at h
        · exact ih h
        · split_ifs at h
          obtain ⟨m1, hfree, hrest⟩ := bind_eq_ok.mp h
          exact (Kmem.Keeps.kfree hfree).trans (ih hrest)
    · cases h
      exact .refl _

theorem deallocuvm_keeps (h : deallocuvm d m oldsz newsz = .ok (sz, d', m')) : m.Keeps m' := by
  unfold deallocuvm at h
  split_ifs at h
  · cases h
    exact .refl _
  · obtain ⟨⟨d1, m1⟩, hrounds, hret⟩ := bind_eq_ok.mp h
    cases hret
    exact deallocRounds_keeps hrounds

theorem allocRounds_keeps (h : allocRounds n d m v oldsz newsz = .ok (sz, d', m')) :
    m.Keeps m' := by
  induction n generalizing d m v with
  | zero =>
    cases h
    exact .refl _
  | succ n ih =>
    rw [allocRounds] at h
    split at h
    · obtain ⟨⟨sz1, d1, m1⟩, hundo, hret⟩ := bind_eq_ok.mp h
      cases hret
      exact deallocuvm_keeps hundo
    · rename_i page m0 hk
      obtain ⟨⟨ok1, d1, m1⟩, hmap, hrest⟩ := bind_eq_ok.mp h
      have hkeep := ((Kmem.Keeps.kalloc hk).trans (.zero _ page)).trans (mappages_keeps hmap)
      dsimp only at hrest
      split_ifs at hrest
      · exact hkeep.trans (ih hrest)
      · obtain ⟨⟨sz2, d2, m2⟩, hundo, hrest2⟩ := bind_eq_ok.mp hrest
        obtain ⟨m3, hfree, hret⟩ := bind_eq_ok.mp hrest2
        cases hret
        exact hkeep.trans ((deallocuvm_keeps hundo).trans (.kfree hfree))

theorem allocuvm_keeps (h : allocuvm d m oldsz newsz = .ok (sz, d', m')) : m.Keeps m' := by
  unfold allocuvm at h
  split_ifs at h
  · cases h
    exact .refl _
  · cases h
    exact .refl _
  · exact allocRounds_keeps h

theorem resize_keeps {k : Int} (h : resize d m oldsz k = .ok (sz, d', m')) : m.Keeps m' := by
  unfold resize at h
  split_ifs at h
  · exact allocuvm_keeps h
  · exact deallocuvm_keeps h
  · cases h
    exact .refl _

theorem freeAll_keeps {shared l : List ℕ} (h : freeAll shared m l = .ok m') : m.Keeps m' := by
  induction l generalizing m with
  | nil =>
    cases h
    exact .refl _
  | cons page l ih =>
    rw [freeAll] at h
    split_ifs at h
    · exact ih h
    · obtain ⟨m1, hfree, hrest⟩ := bind_eq_ok.mp h
      exact (Kmem.Keeps.kfree hfree).trans (ih hrest)

theorem freevm_keeps {shared : List ℕ} (h : freevm shared d m = .ok m') : m.Keeps m' := by
  obtain ⟨⟨sz, d1, m1⟩, hdealloc, h1⟩ := bind_eq_ok.mp h
  obtain ⟨m2, htables, hdir⟩ := bind_eq_ok.mp h1
  exact (deallocuvm_keeps hdealloc).trans ((freeAll_keeps htables).trans (.kfree hdir))

theorem kernTables_keeps (n : ℕ) (m : Kmem) (l : List ℕ) : m.Keeps (kernTables n m l).2.2 := by
  induction n generalizing m l with
  | zero => exact .refl _
  | succ n ih =>
    rw [kernTables]
    split
    · exact .refl _
    · rename_i hk
      exact (Kmem.Keeps.kalloc hk).trans ((Kmem.Keeps.zero _ _).trans (ih _ _))

theorem setupkvm_keeps {shared : List ℕ} {r : Option Pgdir} (h : setupkvm shared m = .ok (r, m')) :
    m.Keeps m' := by
  unfold setupkvm at h
  split at h
  · cases h
    exact .refl _
  · rename_i page m0 hk
    have hkeep := (Kmem.Keeps.kalloc hk).trans
      ((Kmem.Keeps.zero m0 page).trans (kernTables_keeps NKERNTABLES (m0.zero page) []))
    dsimp only at h
    split_ifs at h
    · cases h
      exact hkeep
    · obtain ⟨m1, hfree, hret⟩ := bind_eq_ok.mp h
      cases hret
      exact hkeep.trans (freevm_keeps hfree)

theorem copyRounds_keeps {par : Pgdir} {held : List (ℕ × ℕ)} {cm skip : Bool}
    (h : copyRounds par held cm n v skip d m = .ok (ok, d', m')) : m.Keeps m' := by
  induction n generalizing d m v skip with
  | zero =>
    cases h
    exact .refl _
  | succ n ih =>
    obtain ⟨e, own, -, -, hround⟩ := copyRounds_cases h
    cases hround with
    | passed hrest => exact ih hrest
    | skipped hrest => exact ih hrest
    | noPage => exact .refl _
    | shared _ _ hmap hrest => exact (mappages_keeps hmap).trans (ih hrest)
    | taken hfree hmap hrest =>
      have hkeep := (Kmem.Keeps.taken hfree _).trans (mapPage_keeps hmap)
      split_ifs at hrest
      · exact hkeep.trans (ih hrest)
      · cases hrest
        exact hkeep

theorem copyuvm_keeps {s : Kernel} {p : PIdx} {par : Pgdir} {r : Option Pgdir}
    (h : copyuvm s p par sz = .ok (r, m')) : s.km.Keeps m' := by
  obtain ⟨⟨d0, m0⟩, hsetup, h1⟩ := bind_eq_ok.mp h
  rcases d0 with _ | d0
  · cases h1
    exact setupkvm_keeps hsetup
  obtain ⟨⟨ok1, d1, m1⟩, hcopy, h2⟩ := bind_eq_ok.mp h1
  have hkeep := (setupkvm_keeps hsetup).trans (copyRounds_keeps hcopy)
  dsimp only at h2
  split_ifs at h2
  · cases h2
    exact hkeep
  · obtain ⟨m2, hfree, hret⟩ := bind_eq_ok.mp h2
    cases hret
    exact hkeep.trans (freevm_keeps hfree)

theorem loadSegments_keeps {data : Bytes} {off : ℕ} {r : Option ℕ}
    (h : loadSegments data n off sz d m = .ok (r, d', m')) : m.Keeps m' := by
  induction n generalizing d m off sz with
  | zero =>
    cases h
    exact .refl _
  | succ n ih =>
    rw [loadSegments] at h
    split at h
    · cases h
      exact .refl _
    split_ifs at h
    · exact ih h
    · cases h
      exact .refl _
    · obtain ⟨⟨sz1, d1, m1⟩, halloc, h1⟩ := bind_eq_ok.mp h
      dsimp only at h1
      split_ifs at h1
      · cases h1
        exact allocuvm_keeps halloc
      · obtain ⟨⟨ok1, mem⟩, -, h2⟩ := bind_eq_ok.mp h1
        have hkeep := (allocuvm_keeps halloc).trans (.setMem m1 mem)
        dsimp only at h2
        split_ifs at h2
        · exact hkeep.trans (ih h2)
        · cases h2
          exact hkeep

theorem buildImage_keeps {data : Bytes} {elf : Elfhdr} {argv : List Bytes} {r : Option NewImage}
    (h : buildImage data elf argv d m = .ok (r, d', m')) : m.Keeps m' := by
  obtain ⟨⟨sz, d1, m1⟩, hload, h1⟩ := bind_eq_ok.mp h
  refine (loadSegments_keeps hload).trans ?_
  rcases sz with _ | sz
  · cases h1
    exact .refl _
  obtain ⟨⟨sz2, d2, m2⟩, halloc, h2⟩ := bind_eq_ok.mp h1
  refine (allocuvm_keeps halloc).trans ?_
  dsimp only at h2
  split_ifs at h2
  · cases h2
    exact .refl _
  obtain ⟨d3, -, h3⟩ := bind_eq_ok.mp h2
  obtain ⟨⟨sp, mem⟩, -, h4⟩ := bind_eq_ok.mp h3
  cases h4
  exact .setMem m2 mem

end Keeps

/-! ## The kernel -/

/-- Free pages are pages of memory, and so is the page of a slot with a name. -/
structure Phys (s : Kernel) : Prop where
  free : ∀ f ∈ s.km.free, s.km.isPage f
  shm : ∀ g, cstr (s.shm g).name ≠ [] → ∃ page, (s.shm g).pa = page * PGSIZE ∧ s.km.isPage page

/-- No slot gets another name or page, but it may lose its name. -/
structure PhysSame (s s' : Kernel) : Prop where
  km : s.km.Keeps s'.km
  shm : ∀ g, cstr (s'.shm g).name = [] ∨
    (s'.shm g).name = (s.shm g).name ∧ (s'.shm g).pa = (s.shm g).pa

variable {s s' : Kernel} {p : PIdx} {d : Pgdir} {m : Kmem}

namespace PhysSame

theorem of_shm_eq (hkm : s.km.Keeps s'.km) (hshm : s'.shm = s.shm) : PhysSame s s' :=
  ⟨hkm, fun g => .inr (by rw [hshm]; exact ⟨rfl, rfl⟩)⟩

theorem refl (s : Kernel) : PhysSame s s := .of_shm_eq (.refl _) rfl

theorem of_km (h : s.km.Keeps m) : PhysSame s { s with km := m } := .of_shm_eq h rfl

theorem of_eq (hkm : s'.km = s.km) (hshm : s'.shm = s.shm) : PhysSame s s' :=
  .of_shm_eq (hkm ▸ .refl _) hshm

theorem of_memSame (h : MemSame s s') : PhysSame s s' :=
  .of_shm_eq (.of_subset h.first (h.free ▸ List.Subset.refl _)) h.shm

theorem trans {s1 : Kernel} (h : PhysSame s s1) (h' : PhysSame s1 s') : PhysSame s s' where
  km := h.km.trans h'.km
  shm g := by
    obtain hnil | ⟨hname', hpa'⟩ := h'.shm g
    · exact .inl hnil
    · rw [hname', hpa']
      exact h.shm g

theorem fileFrame : FileFrame PhysSame where
  refl := refl
  trans := trans
  fs _ _ := .of_eq rfl rfl
  mem s mem := .of_km (.setMem s.km mem)
  wakeup _ _ := .of_eq rfl rfl
  file _ _ := .of_eq rfl rfl
  pipe _ _ := .of_eq rfl rfl
  ofile _ _ _ := .of_eq rfl rfl
  cwd _ _ _ := .of_eq rfl rfl
  kalloc _ _ _ h := .of_km (.kalloc h)
  kfree _ _ _ h := .of_km (.kfree h)

end PhysSame

theorem Phys.same (h : Phys s) (hs : PhysSame s s') : Phys s' := by
  have hpage : ∀ f, s'.km.isPage f ↔ s.km.isPage f := fun f => by
    rw [Kmem.isPage, Kmem.isPage, hs.km.first]
  refine ⟨fun f hf => (hpage f).mpr (hs.km.free h.free f hf), fun g hg => ?_⟩
  obtain hnil | ⟨hname, hpa⟩ := hs.shm g
  · exact absurd hnil hg
  · rw [hname] at hg
    obtain ⟨page, heq, hpg⟩ := h.shm g hg
    exact ⟨page, hpa.trans heq, (hpage page).mpr hpg⟩

/-! ## The calls -/

theorem ForkRest.physSame {np : PIdx} (h : ForkRest np s s') : PhysSame s s' where
  km := .of_subset h.first (h.free ▸ List.Subset.refl _)
  shm g := by
    have hname : (s'.shm g).core.name = (s.shm g).core.name := congrArg SharedMem.name (h.shm g)
    have hpa : (s'.shm g).core.pa = (s.shm g).core.pa := congrArg SharedMem.pa (h.shm g)
    exact .inr ⟨hname, hpa⟩

theorem fork_physSame {r : Int} (h : fork s p = .ok (r, s')) : PhysSame s s' := by
  obtain ⟨d, -, ⟨-, rfl, -⟩ | ⟨s1, hcharged, hrest⟩⟩ := fork_cases h
  · exact .refl _
  have hcharge : PhysSame s s1 := by
    cases hcharged with
    | outside => exact .refl s
    | inside => exact .of_eq rfl rfl
  refine hcharge.trans ?_
  obtain ⟨-, hfailed⟩ | ⟨np, -, hok⟩ := hrest
  · cases hfailed with
    | noSlot => exact .refl _
    | noStack np q mem => exact .of_shm_eq (.setMem s1.km mem) rfl
    | noCopy np page free q mem m m' _ hfree hcopy hkfree =>
      have hstack := Kmem.Keeps.taken hfree mem
      exact .of_shm_eq (hstack.trans ((copyuvm_keeps hcopy).trans (.kfree hkfree))) rfl
  · obtain ⟨page, free, q, mem, d', m, -, hfree, hcopy, hchild⟩ := hok.steps
    obtain ⟨s2, s3, hshm, htail, rfl⟩ := forkChild_cases hchild
    have hkeep : s1.km.Keeps m := (Kmem.Keeps.taken hfree mem).trans (copyuvm_keeps hcopy)
    let s0 : Kernel :=
      { s1 with
        proc := Function.update s1.proc np ((s1.proc np).forked s1.nextpid page d')
        nextpid := s1.nextpid + 1
        pq := q
        km := m }
    have hmade : PhysSame s1 (s0.setProc np ((s0.proc np).child (s0.proc p) p)) :=
      .of_shm_eq hkeep rfl
    have hlast := (forkShm_rest hshm).physSame.trans htail.toForkRest.physSame
    have hrun : PhysSame s3 (s3.setProc np { s3.proc np with state := .RUNNABLE }) := .of_eq rfl rfl
    exact hmade.trans (hlast.trans hrun)

theorem shmRem_physSame {name : Bytes} {r : Int} (h : shmRem s p name = .ok (r, s')) :
    PhysSame s s' := by
  obtain ⟨rfl, -⟩ | ⟨g, i, d, -, -, -, -, hrem⟩ := shmRem_cases h
  · exact .refl _
  cases hrem with
  | last e m _ _ hm =>
    refine ⟨.kfree hm, fun g' => ?_⟩
    show cstr (((s.setProc p _).setShm g _).shm g').name = [] ∨ _
    rw [setShm_shm]
    split_ifs
    · exact .inl (cstr_clearName _)
    · exact .inr ⟨rfl, rfl⟩
  | dropped =>
    refine ⟨.refl _, fun g' => ?_⟩
    rw [setShm_shm]
    split_ifs with hg
    · rw [hg]
      exact .inr ⟨rfl, rfl⟩
    · exact .inr ⟨rfl, rfl⟩

theorem exitShm_physSame {is : List ShmIdx} (h : exitShm p is s = .ok s') : PhysSame s s' := by
  induction is generalizing s with
  | nil =>
    cases h
    exact .refl _
  | cons i is ih =>
    rw [exitShm] at h
    split_ifs at h
    · obtain ⟨⟨r, s1⟩, hrem, hrest⟩ := bind_eq_ok.mp h
      exact (shmRem_physSame hrem).trans (ih hrest)
    · exact ih h

theorem exit_physSame (h : exit s p = .ok s') : PhysSame s s' := by
  obtain ⟨-, s1, s2, hfiles, hshm, hpassed⟩ := exit_cases h
  refine (PhysSame.fileFrame.closeFiles hfiles).trans ((exitShm_physSame hshm).trans ?_)
  exact (PhysSame.of_memSame (exitMutexes_memSame s2 p)).trans (.of_eq hpassed.km hpassed.shm)

theorem wait_physSame {r : Option Int} (h : wait s p = .ok (r, s')) : PhysSame s s' := by
  obtain ⟨q, page, d, m, m', c, -, -, -, hm, hm', -, rfl⟩ | rfl | rfl := wait_cases h
  · exact .of_shm_eq ((Kmem.Keeps.kfree hm).trans (freevm_keeps hm')) rfl
  · exact .refl _
  · exact .of_eq rfl rfl

theorem execElf_physSame {old : Pgdir} {path data : Bytes} {elf : Elfhdr}
    {argv : List Bytes} {r : Int}
    (h : execElf s p old path data elf argv = .ok (r, s')) : PhysSame s s' := by
  obtain ⟨m, hsetup, rfl⟩ | ⟨d, m, img, d', m', hsetup, hbuild, hrest⟩ := execElf_cases h
  · exact .of_km (setupkvm_keeps hsetup)
  have hkeep := (setupkvm_keeps hsetup).trans (buildImage_keeps hbuild)
  obtain ⟨m'', -, hfree, rfl⟩ | ⟨img, -, hcommit⟩ := hrest
  · exact .of_km (hkeep.trans (freevm_keeps hfree))
  · obtain ⟨m'', hfree, hcommit⟩ := bind_eq_ok.mp hcommit
    cases hcommit
    exact .of_shm_eq (hkeep.trans (freevm_keeps hfree)) rfl

theorem exec_physSame {path : Bytes} {argv : List Bytes} {r : Int}
    (h : exec s p path argv = .ok (r, s')) : PhysSame s s' := by
  obtain ⟨old, ip, s1, -, hnamei, hrest⟩ := exec_cases h
  refine (PhysSame.of_memSame (nameiProc_memSame hnamei)).trans ?_
  obtain ⟨-, rfl⟩ | ⟨i, fs, fs', -, -, -, hrest⟩ := hrest
  · exact .refl _
  have hfs : PhysSame s1 { s1 with fs := fs' } := .of_eq rfl rfl
  obtain rfl | ⟨data, elf, hexec⟩ := hrest
  · exact hfs
  · exact hfs.trans (execElf_physSame hexec)

theorem growproc_physSame {n r : Int} (h : growproc s p n = .ok (r, s')) : PhysSame s s' := by
  obtain ⟨d, sz, d', m, -, hresize, rfl⟩ := growproc_cases h
  exact .of_shm_eq (resize_keeps hresize) rfl

theorem cmCreateAndEnter_physSame {init fs : Bytes} {n r : Int}
    (h : cmCreateAndEnter s p init fs n = .ok (r, s')) : PhysSame s s' := by
  obtain rfl | ⟨c, cwd, cid, containers, fs, mem, r', s1, hfork, rfl⟩ := cmCreateAndEnter_cases h
  · exact .of_eq rfl rfl
  · have henter : PhysSame s (s.entered p c cwd cid containers fs mem) :=
      .of_shm_eq (.setMem s.km mem) rfl
    exact henter.trans ((fork_physSame hfork).trans (.of_eq rfl rfl))

theorem shmAttach_physSame {name : Bytes} {i : Option ShmIdx} {g : ShmIdx} {r : Int}
    (h : shmAttach s p d name i g = .ok (r, s')) : PhysSame s s' := by
  obtain ⟨s1, hfill, h1⟩ := bind_eq_ok.mp h
  cases h1
  have hslot : PhysSame s1 (s1.setShm g
      { s1.shm g with
          refcount := uinc (s1.shm g).refcount, container_id := (s1.proc p).container_id }) := by
    refine ⟨.refl _, fun g' => .inr ?_⟩
    rw [setShm_shm]
    split_ifs with hg
    · rw [hg]
      exact ⟨rfl, rfl⟩
    · exact ⟨rfl, rfl⟩
  refine PhysSame.trans ?_ hslot
  unfold shmFill at hfill
  split at hfill
  · split_ifs at hfill
    cases hfill
    exact .of_eq rfl rfl
  · obtain ⟨mem1, -, h2⟩ := bind_eq_ok.mp hfill
    obtain ⟨mem2, -, h3⟩ := bind_eq_ok.mp h2
    obtain ⟨mem3, -, h4⟩ := bind_eq_ok.mp h3
    obtain ⟨mem4, -, h5⟩ := bind_eq_ok.mp h4
    cases h5
    exact .of_shm_eq (.setMem s.km mem4) rfl

theorem shmGet_phys {name : Bytes} {r : Int} (h : shmGet s p name = .ok (r, s')) (hphys : Phys s) :
    Phys s' := by
  obtain ⟨d, -, hout⟩ := shmGet_outcome h
  cases hout with
  | refused => exact hphys
  | noTable g d' m _ _ hmap => exact hphys.same (.of_shm_eq (mappages_keeps hmap) rfl)
  | joined g d' m _ _ _ _ hmap hend =>
    have hmapped : PhysSame s (s.setVm p d' m) := .of_shm_eq (mappages_keeps hmap) rfl
    exact hphys.same (hmapped.trans (shmAttach_physSame hend))
  | noPage g _ _ _ hpage =>
    refine hphys.same ⟨.refl _, fun g' => .inr ?_⟩
    rw [setShm_shm]
    split_ifs with hg
    · rw [hg]
      exact ⟨rfl, rfl⟩
    · exact ⟨rfl, rfl⟩
  | made g page free d' m _ _ _ _ _ hpage hlen hmap hend =>
    refine Phys.same ?_ (shmAttach_physSame hend)
    have hkeep : s.km.Keeps m := (Kmem.Keeps.taken hpage _).trans (mappages_keeps hmap)
    have hkm : ∀ f, m.isPage f ↔ s.km.isPage f :=
      fun f => by rw [Kmem.isPage, Kmem.isPage, hkeep.first]
    refine ⟨fun f hf => (hkm f).mpr (hkeep.free hphys.free f hf), fun g' hg' => ?_⟩
    change cstr ((s.setShm g _).shm g').name ≠ [] at hg'
    show ∃ page', ((s.setShm g _).shm g').pa = _ ∧ m.isPage page'
    rw [setShm_shm] at hg' ⊢
    split_ifs at hg' ⊢
    · exact ⟨page, rfl, (hkm page).mpr (hphys.free page (hpage ▸ List.mem_cons_self))⟩
    · obtain ⟨page', heq, hpg⟩ := hphys.shm g' hg'
      exact ⟨page', heq, (hkm page').mpr hpg⟩

theorem Call.run_phys {c : Call} (h : c.run s p = .ok s') (hother : c.isOther = false)
    (hphys : Phys s) : Phys s' := by
  cases c.ran h with
  | fork h => exact hphys.same (fork_physSame h)
  | exit h => exact hphys.same (exit_physSame h)
  | wait h => exact hphys.same (wait_physSame h)
  | exec h => exact hphys.same (exec_physSame h)
  | sbrk h => exact hphys.same (growproc_physSame h)
  | mGet h => exact shmGet_phys h hphys
  | mRem h => exact hphys.same (shmRem_physSame h)
  | cmCreateAndEnter h => exact hphys.same (cmCreateAndEnter_physSame h)
  | other o => cases hother
  | _ => exact hphys.same (.of_memSame (Call.run_memSame h rfl))

theorem SysCall.run_phys {c : SysCall} (h : c.run s p = .ok s') (hphys : Phys s) : Phys s' := by
  cases c with
  | call c =>
    have hrun : (if c.isOther then (.error .undefined : Res Kernel) else c.run s p) = .ok s' := h
    split_ifs at hrun with hother
    exact Call.run_phys hrun (by simpa using hother) hphys
  | file c =>
    obtain ⟨r, c', hrun, rfl⟩ := SysCall.file_eq_ok h
    exact hphys.same (FileCall.run_frame PhysSame.fileFrame c _ _ _ hrun)
  | sync o =>
    cases h
    refine hphys.same ?_
    unfold Sync.run Other.run
    dsimp only
    have hmux : PhysSame s { s with mux := o.mux } := .of_eq rfl rfl
    have hwake := hmux.trans (PhysSame.fileFrame.wakeups _ o.wakeup)
    split
    · exact hwake.trans (.of_eq rfl rfl)
    · exact hwake.trans (.of_eq rfl rfl)

theorem inituvm_keeps {d' : Pgdir} {m' : Kmem} {code : Bytes}
    (h : inituvm d m code = .ok (d', m')) : m.Keeps m' := by
  unfold inituvm at h
  split_ifs at h
  split at h
  · cases h
  · rename_i page m0 hk
    obtain ⟨⟨ok, d1, m1⟩, hmap, hret⟩ := bind_eq_ok.mp h
    cases hret
    exact ((Kmem.Keeps.kalloc hk).trans
      ((Kmem.Keeps.zero m0 page).trans (mappages_keeps hmap))).trans
      (.setMem m1 _)

theorem boot_phys (h : Boot s) : Phys s := by
  obtain ⟨b, code, p, page, free, mem, d0, d, m0, m, cwd, q, fs, -, hfree, hkvm, huvm, -, rfl⟩ :=
    boot_cases h
  have hkeep : b.km.Keeps m :=
    (Kmem.Keeps.taken hfree mem).trans ((setupkvm_keeps hkvm).trans (inituvm_keeps huvm))
  refine ⟨fun f hf => ?_, fun g hg => absurd rfl hg⟩
  show m.first ≤ f ∧ _
  rw [hkeep.first]
  exact hkeep.free b.free_range f hf

theorem reach_phys (h : sysMachine.Reachable s) : Phys s :=
  Machine.Reach.invariant (I := Phys) h (fun _ => boot_phys) fun _ _ _ hphys _ hstep =>
    SysCall.run_phys (sysMachine_step hstep).2 hphys

end Dockv6
