import Dockv6.Shm.Refcount
import Dockv6.Vm.Pages

/-!
# Who owns a page

Every page that the kernel has handed out is the kernel stack of a process, a page of its address
space, or the page of a slot of `shm_list`. `deallocuvm` frees whatever is mapped, and so may put
the page of a slot on the free list (`shrink_frees_shared`).
-/

namespace Dockv6

open Kernel Function

variable {s s' : Kernel} {p np : PIdx} {i g : ShmIdx} {d d' : Pgdir} {m : Kmem}

/-! ## Owners -/

/-- What a page is used for. -/
inductive Owner
  | stack (p : PIdx)
  | part (p : PIdx) (k : Part)
  | slot (g : ShmIdx)
  deriving DecidableEq

/-- The pages of the slots that have references. -/
def Kernel.frames (s : Kernel) : Set ℕ :=
  {x | ∃ g, 0 < (s.shm g).refcount ∧ (s.shm g).pa / PGSIZE = x}

/-- The pages of an owner. -/
def Kernel.own (s : Kernel) : Owner → Set ℕ
  | .stack p => {x | s.live p ∧ (s.proc p).kstack = some x}
  | .part p k => {x | s.live p ∧ ∃ d, (s.proc p).pgdir = some d ∧ x ∈ d.own s.frames k}
  | .slot g => {x | 0 < (s.shm g).refcount ∧ (s.shm g).pa / PGSIZE = x}

/-- The pages that are not of the address space of `p`. -/
def Kernel.elsewhere (s : Kernel) (p : PIdx) : Set ℕ :=
  {x | ∃ a, (∀ k, a ≠ .part p k) ∧ x ∈ s.own a}

/-- The process has the shared page `x` at the page number `v`. -/
def Kernel.uses (s : Kernel) (p : PIdx) (v x : ℕ) : Prop :=
  ∃ i g, s.shmRef (p, i) = some g ∧ ((s.proc p).shared_mem i).va / PGSIZE = v ∧
    (s.shm g).pa / PGSIZE = x

/-- No page has two owners, or is owned and free. A process maps the page of a slot only where an
entry of it says so, and its entries have different addresses. -/
structure PageInv (s : Kernel) : Prop where
  pool : Pool ∅ s.km.free s.own
  backed : ∀ {p d}, s.live p → (s.proc p).pgdir = some d →
    ∀ v e, d.pte v = some e → e.ppn ∈ s.frames → s.uses p v e.ppn
  aligned : ∀ {p i g}, s.shmRef (p, i) = some g → ((s.proc p).shared_mem i).va % PGSIZE = 0
  apart : ∀ {p i j g g'}, s.shmRef (p, i) = some g → s.shmRef (p, j) = some g' →
    ((s.proc p).shared_mem i).va / PGSIZE = ((s.proc p).shared_mem j).va / PGSIZE → i = j

theorem frames_subset_elsewhere (s : Kernel) (p : PIdx) : s.frames ⊆ s.elsewhere p :=
  fun _ ⟨g, hg⟩ => ⟨.slot g, nofun, hg⟩

theorem ShmInv.refcount_pos {k : PIdx × ShmIdx} (h : ShmInv s) (hk : s.shmRef k = some g) :
    0 < (s.shm g).refcount := by
  rw [h.count]
  exact card_refs_pos hk

namespace PageInv

/-- The address space of one process, with everything else kept aside. -/
theorem fits (h : PageInv s) (hp : s.live p) (hd : (s.proc p).pgdir = some d) :
    Fits (s.elsewhere p) s.frames (s.uses p) d s.km where
  pool := h.pool.focus (e := .part p) (fun _ _ heq => (Owner.part.inj heq).2)
    (fun _ _ hx => ⟨hp, d, hd, hx⟩) fun _ hx => .inr hx
  shared := frames_subset_elsewhere s p
  backed := h.backed hp hd

/-- Nothing of the address space yet. -/
theorem room (h : PageInv s) (p : PIdx) : Pool (s.elsewhere p) s.km.free noPages :=
  h.pool.focus (e := .part p) (fun _ _ heq => (Owner.part.inj heq).2) (fun _ => Set.empty_subset _)
    fun _ hx => .inr hx

theorem slot_unique (h : PageInv s) {g' : ShmIdx} (hg : 0 < (s.shm g).refcount)
    (hg' : 0 < (s.shm g').refcount) (heq : (s.shm g).pa / PGSIZE = (s.shm g').pa / PGSIZE) :
    g = g' :=
  Owner.slot.inj (h.pool.unique (a := .slot g) (b := .slot g') ⟨hg, heq⟩ ⟨hg', rfl⟩)

end PageInv

/-! ## What leaves the owners alone -/

/-- The address spaces, stacks and entries of the live processes, the slots and the free pages are
the same. -/
structure PageSame (s s' : Kernel) : Prop where
  live : ∀ q, s'.live q ↔ s.live q
  pgdir : ∀ q, s.live q → (s'.proc q).pgdir = (s.proc q).pgdir
  kstack : ∀ q, s.live q → (s'.proc q).kstack = (s.proc q).kstack
  shared_mem : ∀ q, s.live q → (s'.proc q).shared_mem = (s.proc q).shared_mem
  shm : s'.shm = s.shm
  free : s'.km.free = s.km.free

theorem live_of_shmRef {k : PIdx × ShmIdx} (h : s.shmRef k = some g) : s.live k.1 := by
  intro hunused
  rw [Kernel.shmRef, Proc.shmRef, if_pos (.inl hunused)] at h
  cases h

namespace PageSame

theorem of_memSame (h : MemSame s s') : PageSame s s' where
  live q := not_congr (ProcState.unused_iff (congrArg MemView.state (h.view q)))
  pgdir q _ := congrArg MemView.pgdir (h.view q)
  kstack q _ := congrArg MemView.kstack (h.view q)
  shared_mem q _ := congrArg MemView.shared_mem (h.view q)
  shm := h.shm
  free := h.free

theorem of_proc (hproc : s'.proc = s.proc) (hshm : s'.shm = s.shm)
    (hfree : s'.km.free = s.km.free) : PageSame s s' := by
  refine ⟨fun q => ?_, fun q _ => ?_, fun q _ => ?_, fun q _ => ?_, hshm, hfree⟩
  · rw [Kernel.live, hproc]
    rfl
  all_goals rw [hproc]

theorem trans {s1 s2 s3 : Kernel} (h : PageSame s1 s2) (h' : PageSame s2 s3) : PageSame s1 s3 where
  live q := (h'.live q).trans (h.live q)
  pgdir q hq := (h'.pgdir q ((h.live q).mpr hq)).trans (h.pgdir q hq)
  kstack q hq := (h'.kstack q ((h.live q).mpr hq)).trans (h.kstack q hq)
  shared_mem q hq := (h'.shared_mem q ((h.live q).mpr hq)).trans (h.shared_mem q hq)
  shm := h'.shm.trans h.shm
  free := h'.free.trans h.free

theorem setProc {x : Proc} (hstate : x.state = (s.proc p).state)
    (hpgdir : x.pgdir = (s.proc p).pgdir) (hkstack : x.kstack = (s.proc p).kstack)
    (hmem : x.shared_mem = (s.proc p).shared_mem) : PageSame s (s.setProc p x) where
  live q := by
    unfold Kernel.live
    rw [setProc_field Proc.state hstate q]
  pgdir q _ := setProc_field Proc.pgdir hpgdir q
  kstack q _ := setProc_field Proc.kstack hkstack q
  shared_mem q _ := setProc_field Proc.shared_mem hmem q
  shm := rfl
  free := rfl

theorem of_unused {x : Proc} (hp : (s.proc p).state = .UNUSED) (hx : x.state = .UNUSED) :
    PageSame s (s.setProc p x) := by
  have hother : ∀ q, s.live q → (s.setProc p x).proc q = s.proc q := by
    intro q hq
    refine setProc_of_ne s p x ?_
    rintro rfl
    exact hq hp
  refine ⟨fun q => ?_, fun q hq => ?_, fun q hq => ?_, fun q hq => ?_, rfl, rfl⟩
  · unfold Kernel.live
    rw [setProc_proc]
    split_ifs with hq
    · rw [hq, hp, hx]
    · rfl
  all_goals rw [hother q hq]

theorem ref (h : PageSame s s') : s'.shmRef = s.shmRef := by
  funext k
  unfold Kernel.shmRef Proc.shmRef
  by_cases hk : s.live k.1
  · have hk' : s'.live k.1 := (h.live k.1).mpr hk
    unfold Kernel.live at hk hk'
    rw [h.shared_mem k.1 hk]
    simp only [hk, hk']
  · have hk' : ¬ s'.live k.1 := fun hlive => hk ((h.live k.1).mp hlive)
    rw [if_pos (.inl (not_not.mp hk')), if_pos (.inl (not_not.mp hk))]

theorem frames (h : PageSame s s') : s'.frames = s.frames := by
  unfold Kernel.frames
  rw [h.shm]

/-- What the other owners have. -/
theorem own (h : PageSame s s') : s'.own = s.own := by
  funext a
  cases a with
  | slot g =>
    unfold Kernel.own
    rw [h.shm]
  | stack q =>
    ext x
    refine (and_congr_left' (h.live q)).trans (and_congr_right fun hq => ?_)
    rw [h.kstack q hq]
  | part q k =>
    ext x
    refine (and_congr_left' (h.live q)).trans (and_congr_right fun hq => ?_)
    rw [h.pgdir q hq, h.frames]

theorem uses (h : PageSame s s') (hp : s.live p) : s'.uses p = s.uses p := by
  unfold Kernel.uses
  rw [h.ref, h.shared_mem p hp, h.shm]

end PageSame

theorem PageInv.of_same (h : PageInv s) (hs : PageSame s s') : PageInv s' where
  pool := by
    rw [hs.free, hs.own]
    exact h.pool
  backed {p d} hp hd := by
    have hp0 := (hs.live p).mp hp
    rw [hs.pgdir p hp0] at hd
    rw [hs.frames, hs.uses hp0]
    exact h.backed hp0 hd
  aligned {p i g} hi := by
    rw [hs.ref] at hi
    rw [hs.shared_mem p (live_of_shmRef hi)]
    exact h.aligned hi
  apart {p i j g g'} hi hj := by
    rw [hs.ref] at hi hj
    rw [hs.shared_mem p (live_of_shmRef hi)]
    exact h.apart hi hj

/-! ## One process changes -/

/-- Only the process `q` has changed, of the processes, and the slots have the same pages. -/
structure ProcOnly (s s' : Kernel) (q : PIdx) : Prop where
  others : ∀ {r}, r ≠ q → s'.proc r = s.proc r
  pa : ∀ g, (s'.shm g).pa = (s.shm g).pa
  count : ∀ g, 0 < (s'.shm g).refcount ↔ 0 < (s.shm g).refcount

namespace ProcOnly

variable {q r : PIdx} (h : ProcOnly s s' q)

include h

theorem frames : s'.frames = s.frames := by
  unfold Kernel.frames
  simp only [h.pa, h.count]

theorem live (hr : r ≠ q) : s'.live r ↔ s.live r := by
  unfold Kernel.live
  rw [h.others hr]

theorem ref (hr : r ≠ q) : s'.shmRef (r, i) = s.shmRef (r, i) := by
  unfold Kernel.shmRef
  rw [h.others hr]

theorem uses (hr : r ≠ q) : s'.uses r = s.uses r := by
  funext v x
  unfold Kernel.uses
  simp only [h.ref hr, h.others hr, h.pa]

/-- What the other owners have. -/
theorem own {a : Owner} (hstack : a ≠ .stack q) (hpart : ∀ k, a ≠ .part q k) :
    s'.own a = s.own a := by
  cases a with
  | slot g =>
    ext x
    exact and_congr (h.count g) (by rw [h.pa])
  | stack r =>
    have hr : r ≠ q := fun heq => hstack (by rw [heq])
    ext x
    exact and_congr (h.live hr) (by rw [h.others hr])
  | part r k =>
    have hr : r ≠ q := fun heq => hpart k (by rw [heq])
    ext x
    exact and_congr (h.live hr) (by rw [h.others hr, h.frames])

/-- The pages of the other owners and the stack of `q` are kept aside while its address space is
made. -/
theorem pool {kept : Set ℕ} {free0 : List ℕ} {own0 : Owner → Set ℕ} {loc : Part → Set ℕ}
    (h0 : Pool ∅ free0 own0) (hloc : Pool kept s'.km.free loc)
    (hkept : ∀ a, a ≠ .stack q → (∀ k, a ≠ .part q k) → ∀ x ∈ s.own a, x ∈ own0 a ∧ x ∈ kept)
    (hstack : ∀ x ∈ s'.own (.stack q), x ∈ own0 (.stack q) ∧ x ∈ kept)
    (hpart : ∀ k, s'.own (.part q k) ⊆ loc k) : Pool ∅ s'.km.free s'.own := by
  refine h0.combine id (.part q) hloc (Set.empty_subset _) fun a x hx => ?_
  by_cases ha : a = .stack q
  · subst ha
    exact .inl ⟨.stack q, rfl, hstack x hx⟩
  by_cases ha' : ∃ k, a = .part q k
  · obtain ⟨k, rfl⟩ := ha'
    exact .inr ⟨k, rfl, hpart k hx⟩
  · have hne := not_exists.mp ha'
    rw [h.own ha hne] at hx
    exact .inl ⟨a, rfl, hkept a ha hne x hx⟩

/-- The slot `q` has a process now, with a stack in the first free page and the address space
`d`. -/
theorem spawn {page : ℕ} {free : List ℕ} {T : ℕ → ℕ → Prop} (hinv : PageInv s)
    (hfree : s.km.free = page :: free)
    (hfits : Fits (insert page (s.elsewhere q)) s.frames T d s'.km)
    (hstack : (s'.proc q).kstack = some page) (hpgdir : (s'.proc q).pgdir = some d) :
    Pool ∅ s'.km.free s'.own := by
  have hpool := hinv.pool
  rw [hfree] at hpool
  have hgiven : Pool ∅ free (update s.own (.stack q) {page}) := by
    refine hpool.take.give (Set.notMem_empty page) (a := .stack q) fun a x hx => ?_
    rw [update_apply] at hx
    split_ifs at hx with ha
    · exact .inr ⟨ha, hx⟩
    · exact .inl hx
  refine h.pool hgiven hfits.pool (fun a ha ha' x hx => ?_)
    (fun x hx => ?_) fun k x ⟨_, d1, hd1, hx⟩ => ?_
  · rw [update_of_ne ha]
    exact ⟨hx, .inr ⟨a, ha', hx⟩⟩
  · obtain rfl : page = x := Option.some.inj (hstack.symm.trans hx.2)
    rw [update_self]
    exact ⟨rfl, Set.mem_insert _ _⟩
  · cases hpgdir.symm.trans hd1
    rwa [h.frames] at hx

/-- The invariant, when it is known of `q`. -/
theorem pageInv (hinv : PageInv s) (hpool : Pool ∅ s'.km.free s'.own)
    (hbacked : ∀ {d}, s'.live q → (s'.proc q).pgdir = some d →
      ∀ v e, d.pte v = some e → e.ppn ∈ s'.frames → s'.uses q v e.ppn)
    (haligned : ∀ {i g}, s'.shmRef (q, i) = some g → ((s'.proc q).shared_mem i).va % PGSIZE = 0)
    (hapart : ∀ {i j g g'}, s'.shmRef (q, i) = some g → s'.shmRef (q, j) = some g' →
      ((s'.proc q).shared_mem i).va / PGSIZE = ((s'.proc q).shared_mem j).va / PGSIZE → i = j) :
    PageInv s' where
  pool := hpool
  backed {r d} hr hd := by
    by_cases hrq : r = q
    · subst hrq
      exact hbacked hr hd
    · rw [h.live hrq] at hr
      rw [h.others hrq] at hd
      rw [h.frames, h.uses hrq]
      exact hinv.backed hr hd
  aligned {r i g} hi := by
    by_cases hrq : r = q
    · subst hrq
      exact haligned hi
    · rw [h.ref hrq] at hi
      rw [h.others hrq]
      exact hinv.aligned hi
  apart {r i j g g'} hi hj := by
    by_cases hrq : r = q
    · subst hrq
      exact hapart hi hj
    · rw [h.ref hrq] at hi hj
      rw [h.others hrq]
      exact hinv.apart hi hj

end ProcOnly

/-- The state with another process `p` and another `kmem`. -/
abbrev Kernel.withProc (s : Kernel) (p : PIdx) (x : Proc) (m : Kmem) : Kernel :=
  { s.setProc p x with km := m }

theorem procOnly_withProc (s : Kernel) (p : PIdx) (x : Proc) (m : Kmem) :
    ProcOnly s (s.withProc p x m) p :=
  ⟨setProc_of_ne s p x, fun _ => rfl, fun _ => Iff.rfl⟩

/-- The process has the address space `d`; the rest of it is the same as far as memory is
concerned. -/
structure Proc.Moved (x y : Proc) (d : Pgdir) : Prop where
  state : y.state = x.state
  kstack : y.kstack = x.kstack
  shared_mem : y.shared_mem = x.shared_mem
  pgdir : y.pgdir = some d

theorem PageInv.update {x : Proc} (hinv : PageInv s) (hx : (s.proc p).Moved x d)
    (hfits : Fits (s.elsewhere p) s.frames (s.uses p) d m) : PageInv (s.withProc p x m) := by
  have honly := procOnly_withProc s p x m
  have hself : (s.withProc p x m).proc p = x := setProc_self s p x
  have href : ∀ {i}, (s.withProc p x m).shmRef (p, i) = s.shmRef (p, i) := by
    intro i
    unfold Kernel.shmRef Proc.shmRef
    rw [hself, hx.state, hx.shared_mem]
  have hmem : ((s.withProc p x m).proc p).shared_mem = (s.proc p).shared_mem := by
    rw [hself, hx.shared_mem]
  refine honly.pageInv hinv ?_ (fun {d1} _ hd1 v e he hS => ?_)
    (fun {i g} hi => ?_) fun {i j g g'} hi hj => ?_
  · refine honly.pool hinv.pool hfits.pool (fun a _ ha x hx => ⟨hx, a, ha, hx⟩) (fun y hy => ?_)
      fun k y ⟨_, d1, hd1, hy⟩ => ?_
    · have hy0 : y ∈ s.own (.stack p) := by
        refine ⟨fun hu => hy.1 ?_,
          hx.kstack.symm.trans ((congrArg Proc.kstack hself).symm.trans hy.2)⟩
        rw [hself, hx.state, hu]
      exact ⟨hy0, .stack p, nofun, hy0⟩
    · rw [hself, hx.pgdir] at hd1
      cases hd1
      exact hy
  · rw [hself, hx.pgdir] at hd1
    cases hd1
    obtain ⟨i, g, hi, hv, hpa⟩ := hfits.backed v e he hS
    exact ⟨i, g, href.trans hi, by rw [hmem, hv], hpa⟩
  · rw [href] at hi
    rw [hmem]
    exact hinv.aligned hi
  · rw [href] at hi hj
    rw [hmem]
    exact hinv.apart hi hj

/-! ## Growing and shrinking -/

/-- No entry of the process in use has an address in the pages from `lo` to `hi`. -/
def Kernel.clearOf (s : Kernel) (p : PIdx) (lo hi : ℕ) : Prop :=
  ∀ i, ((s.proc p).shared_mem i).in_use = true →
    ¬ (lo ≤ ((s.proc p).shared_mem i).va / PGSIZE ∧ ((s.proc p).shared_mem i).va / PGSIZE < hi)

theorem in_use_of_shmRef (h : s.shmRef (p, i) = some g) :
    ((s.proc p).shared_mem i).in_use = true := by
  by_contra hfree
  rw [shmRef_of_free (by simpa using hfree)] at h
  cases h

theorem Kernel.clearOf.not_uses {lo hi v x : ℕ} (h : s.clearOf p lo hi) (hlo : lo ≤ v)
    (hhi : v < hi) : ¬ s.uses p v x := by
  rintro ⟨i, g, hi, rfl, -⟩
  exact h i (in_use_of_shmRef hi) ⟨hlo, hhi⟩

/-- `sbrk` does not move over a shared page. -/
def Kernel.growsClear (s : Kernel) (p : PIdx) (n : Int) : Prop :=
  s.clearOf p (pages (s.proc p).sz) (pages (touint ((s.proc p).sz + n))) ∧
    s.clearOf p (pages (touint ((s.proc p).sz + n))) (pages (s.proc p).sz)

/-- **The outcome of `sbrk`.** The size stays when the page table could not be changed as wanted. -/
theorem growproc_cases {n r : Int} (h : growproc s p n = .ok (r, s')) :
    ∃ d sz d' m, (s.proc p).pgdir = some d ∧ resize d s.km (s.proc p).sz n = .ok (sz, d', m) ∧
      s' = s.withProc p
        { s.proc p with
          pgdir := some d'
          sz := if n ≠ 0 ∧ sz = 0 then (s.proc p).sz else sz } m := by
  unfold growproc at h
  split at h
  · cases h
  rename_i d hd
  obtain ⟨⟨sz, d', m⟩, hresize, h⟩ := bind_eq_ok.mp h
  refine ⟨d, sz, d', m, hd, hresize, ?_⟩
  dsimp only at h
  split_ifs at h ⊢
  · cases h
    rfl
  · cases h
    simp only [setVm, withProc, Kernel.setProc, update_self, update_idem]

theorem growproc_pageInv {n r : Int} (h : growproc s p n = .ok (r, s')) (hinv : PageInv s)
    (hp : s.live p) (hclear : s.growsClear p n) : PageInv s' := by
  obtain ⟨d, sz, d', m, hd, hresize, rfl⟩ := growproc_cases h
  refine hinv.update ⟨rfl, rfl, rfl, rfl⟩ ?_
  unfold resize at hresize
  split_ifs at hresize
  · exact allocuvm_fits (hinv.fits hp hd) (fun w x => hclear.1.not_uses) hresize
  · exact deallocuvm_fits (hinv.fits hp hd) (fun w x => hclear.2.not_uses) hresize
  · cases hresize
    exact hinv.fits hp hd

/-! ## Exec -/

theorem execElf_pageInv {old : Pgdir} {path data : Bytes} {elf : Elfhdr}
    {argv : List Bytes} {r : Int} (h : execElf s p old path data elf argv = .ok (r, s'))
    (hinv : PageInv s) (hp : s.live p)
    (hd : (s.proc p).pgdir = some old) (hclear : ∀ v x, ¬ s.uses p v x) : PageInv s' := by
  have hold := hinv.fits hp hd
  have hshared : s.frames ⊆ s.elsewhere p ∪ Pool.items (old.own s.frames) :=
    hold.shared.trans Set.subset_union_left
  -- A failure leaves the process with its old address space, and the free pages have changed.
  have hkeep : ∀ m : Kmem, Pool (s.elsewhere p ∪ Pool.items (old.own s.frames)) m.free noPages →
      PageInv { s with km := m } := by
    intro m hpool
    have hset : s.withProc p (s.proc p) m = { s with km := m } := by
      simp only [withProc, Kernel.setProc, update_eq_self]
    rw [← hset]
    exact hinv.update ⟨rfl, rfl, rfl, hd⟩ ⟨hold.pool.restore hpool, hold.shared, hold.backed⟩
  obtain ⟨m0, hkvm, rfl⟩ | ⟨d0, m0, img, d1, m1, hkvm, himage, hrest⟩ := execElf_cases h
  · exact hkeep m0 (setupkvm_fits (T := fun _ _ => False) hold.pool.aside hshared hkvm)
  have h0 := setupkvm_fits (T := fun _ _ => False) hold.pool.aside hshared hkvm
  obtain ⟨h1, himg⟩ := buildImage_fits h0 (fun _ _ => id) himage
  obtain ⟨m2, rfl, hfree, rfl⟩ | ⟨img, rfl, hcommit⟩ := hrest
  · exact hkeep m2 (freevm_pool h1 (fun _ _ => id) hfree)
  · obtain ⟨m2, hfree, hcommit⟩ := bind_eq_ok.mp hcommit
    cases hcommit
    obtain rfl := himg img rfl
    -- Now the new image is kept aside, and the old one is freed.
    have hswap : Fits (s.elsewhere p ∪ Pool.items (img.d.own s.frames)) s.frames
        (s.uses p) old m1 :=
      ⟨hold.pool.swap h1.pool, hold.shared.trans Set.subset_union_left, hold.backed⟩
    have hdone := freevm_pool hswap hclear hfree
    have hnew : Fits (s.elsewhere p) s.frames (s.uses p) img.d m2 := by
      refine ⟨Pool.restore (h1.pool.mono Set.subset_union_left fun _ => subset_rfl) hdone,
        hold.shared, ?_⟩
      exact fun v e he hS => (h1.backed v e he hS).elim
    refine hinv.update ?_ hnew
    exact ⟨rfl, rfl, rfl, rfl⟩

theorem exec_pageInv {path : Bytes} {argv : List Bytes} {r : Int}
    (h : exec s p path argv = .ok (r, s')) (hinv : PageInv s) (hp : s.live p)
    (hclear : ∀ i, ((s.proc p).shared_mem i).in_use = false) : PageInv s' := by
  obtain ⟨old, ip, s1, hd, hnamei, hrest⟩ := exec_cases h
  have hsame : PageSame s s1 := .of_memSame (nameiProc_memSame hnamei)
  obtain ⟨-, rfl⟩ | ⟨i, fs, fs', -, -, -, hrest⟩ := hrest
  · exact hinv.of_same hsame
  have hfs : PageSame s { s1 with fs := fs' } := hsame.trans (.of_proc rfl rfl rfl)
  obtain rfl | ⟨data, elf, hexec⟩ := hrest
  · exact hinv.of_same hfs
  · refine execElf_pageInv hexec (hinv.of_same hfs) ((hfs.live p).mpr hp)
      ((hfs.pgdir p hp).trans hd) ?_
    rintro v x ⟨i, g, hi, -⟩
    rw [hfs.ref, shmRef_of_free (hclear i)] at hi
    cases hi

/-! ## One entry changes -/

/-- Only the entry `i` of `p`, its address space and its size have changed, of the processes. -/
structure EntryOnly (s s' : Kernel) (p : PIdx) (i : ShmIdx) : Prop where
  others : ∀ q, q ≠ p → s'.proc q = s.proc q
  state : (s'.proc p).state = (s.proc p).state
  kstack : (s'.proc p).kstack = (s.proc p).kstack
  entries : ∀ j, j ≠ i → (s'.proc p).shared_mem j = (s.proc p).shared_mem j

namespace EntryOnly

theorem live (h : EntryOnly s s' p i) (q : PIdx) : s'.live q ↔ s.live q := by
  unfold Kernel.live
  by_cases hq : q = p
  · rw [hq, h.state]
  · rw [h.others q hq]

theorem entry (h : EntryOnly s s' p i) {q : PIdx} {j : ShmIdx} (hk : (q, j) ≠ (p, i)) :
    (s'.proc q).shared_mem j = (s.proc q).shared_mem j := by
  by_cases hq : q = p
  · subst hq
    exact h.entries j fun hj => hk (by rw [hj])
  · rw [h.others q hq]

theorem ref (h : EntryOnly s s' p i) {k : PIdx × ShmIdx} (hk : k ≠ (p, i)) :
    s'.shmRef k = s.shmRef k := by
  unfold Kernel.shmRef Proc.shmRef
  rw [h.entry hk]
  have hlive := not_congr (h.live k.1)
  unfold Kernel.live at hlive
  simp only [not_not] at hlive
  simp only [hlive]

theorem stack (h : EntryOnly s s' p i) {q : PIdx} {x : ℕ} (hx : x ∈ s'.own (.stack q)) :
    x ∈ s.own (.stack q) := by
  refine ⟨(h.live q).mp hx.1, ?_⟩
  by_cases hq : q = p
  · rw [hq, ← h.kstack, ← hq]
    exact hx.2
  · rw [← h.others q hq]
    exact hx.2

/-- The address space of another process. -/
theorem part (h : EntryOnly s s' p i) {q : PIdx} (hq : q ≠ p) {k : Part} {x : ℕ}
    (hframes : ∀ d v e, s.live q → (s.proc q).pgdir = some d → d.pte v = some e → e.ppn ∈ s.frames →
      e.ppn ∈ s'.frames) (hx : x ∈ s'.own (.part q k)) : x ∈ s.own (.part q k) := by
  obtain ⟨hlive, d, hd, hx⟩ := hx
  have hlive0 := (h.live q).mp hlive
  rw [h.others q hq] at hd
  exact ⟨hlive0, d, hd, Pgdir.own_anti (fun v e => hframes d v e hlive0 hd) hx⟩

end EntryOnly

/-! ## Getting a page -/

/-- The entry `i` of `p` is now for the slot `g` with the page `x`, at the end of the image, and `p`
has the address space `d`. The slot may be new. -/
structure Attached (s s' : Kernel) (p : PIdx) (i g : ShmIdx) (x : ℕ) (d : Pgdir) : Prop
    extends EntryOnly s s' p i where
  unused : ((s.proc p).shared_mem i).in_use = false
  self : s'.shmRef (p, i) = some g
  va : ((s'.proc p).shared_mem i).va = (s.proc p).sz
  pgdir : (s'.proc p).pgdir = some d
  slots : ∀ g', g' ≠ g → s'.shm g' = s.shm g'
  count : 0 < (s'.shm g).refcount
  pa : (s'.shm g).pa / PGSIZE = x
  old : 0 < (s.shm g).refcount → (s.shm g).pa / PGSIZE = x

theorem attached_of {x : ℕ} (d : Pgdir) (m : Kmem) (name : Bytes) {y : SharedMem} (hp : s.live p)
    (hi : ((s.proc p).shared_mem i).in_use = false) (hcount : 0 < y.refcount)
    (hpa : y.pa / PGSIZE = x) (hold : 0 < (s.shm g).refcount → (s.shm g).pa / PGSIZE = x) :
    Attached s { (s.setProc p ((s.proc p).attached d name i g)).setShm g y with
      km := m } p i g x d := by
  have hself : (s.setProc p ((s.proc p).attached d name i g)).proc p =
      (s.proc p).attached d name i g :=
    setProc_self ..
  have href : (s.setProc p ((s.proc p).attached d name i g)).shmRef = update s.shmRef
      (p, i) (some g) :=
    shmRef_setProc hp (Proc.attached_state ..) (Proc.attached_shared_mem ..)
  refine ⟨⟨fun q hq => setProc_of_ne s p _ hq, ?_, ?_, fun j hj => ?_⟩, hi, ?_, ?_, ?_,
    fun g' hg' => ?_, ?_, ?_, hold⟩
  · exact (congrArg Proc.state hself).trans (Proc.attached_state ..)
  · exact (congrArg Proc.kstack hself).trans (Proc.attached_kstack ..)
  · refine (congrArg (Proc.shared_mem · j) hself).trans ?_
    rw [Proc.attached_shared_mem, update_of_ne hj]
  · exact (congrFun href (p, i)).trans (update_self ..)
  · refine (congrArg (fun z : Proc => (z.shared_mem i).va) hself).trans ?_
    rw [Proc.attached_shared_mem, update_self]
  · exact (congrArg Proc.pgdir hself).trans (Proc.attached_pgdir ..)
  · exact update_of_ne hg' ..
  · exact lt_of_lt_of_eq hcount (congrArg SharedMem.refcount (update_self g y s.shm)).symm
  · exact (congrArg (fun z : SharedMem => z.pa / PGSIZE) (update_self g y s.shm)).trans hpa

namespace Attached

variable {x : ℕ} (h : Attached s s' p i g x d)

include h

theorem ne {k : PIdx × ShmIdx} {g' : ShmIdx} (hk : s.shmRef k = some g') : k ≠ (p, i) := by
  rintro rfl
  cases (shmRef_of_free h.unused).symm.trans hk

theorem page {g' : ShmIdx} (hg' : 0 < (s.shm g').refcount) :
    (s'.shm g').pa / PGSIZE = (s.shm g').pa / PGSIZE := by
  by_cases heq : g' = g
  · rw [heq, h.pa, h.old (heq ▸ hg')]
  · rw [h.slots g' heq]

theorem frames : s'.frames = insert x s.frames := by
  ext z
  constructor
  · rintro ⟨g', hg', rfl⟩
    by_cases heq : g' = g
    · exact .inl (heq ▸ h.pa)
    · rw [h.slots g' heq] at hg' ⊢
      exact .inr ⟨g', hg', rfl⟩
  · rintro (rfl | ⟨g', hg', rfl⟩)
    · exact ⟨g, h.count, h.pa⟩
    · refine ⟨g', ?_, h.page hg'⟩
      by_cases heq : g' = g
      · exact heq ▸ h.count
      · rwa [h.slots g' heq]

theorem uses_of {q : PIdx} {v z : ℕ} (hshm : ShmInv s) (hq : s.uses q v z) : s'.uses q v z := by
  obtain ⟨j, g', hj, hv, hz⟩ := hq
  refine ⟨j, g', ?_, ?_, ?_⟩
  · rw [h.ref (h.ne hj), hj]
  · rw [h.entry (h.ne hj), hv]
  · rw [h.page (hshm.refcount_pos hj), hz]

theorem uses_self (haligned : (s.proc p).sz % PGSIZE = 0) : s'.uses p (pages (s.proc p).sz) x := by
  refine ⟨i, g, h.self, ?_, h.pa⟩
  rw [h.va]
  unfold pages PGSIZE
  unfold PGSIZE at haligned
  omega

theorem pool {m1 : Kmem} {T : ℕ → ℕ → Prop} (hpool : Pool ∅ m1.free (update s.own (.slot g) {x}))
    (hfits : Fits (insert x (s.elsewhere p)) s'.frames T d m) : Pool ∅ m.free s'.own := by
  -- What was owned before, by another owner than the slot and the address space.
  have hold : ∀ {a z}, a ≠ .slot g → (∀ k, a ≠ .part p k) → z ∈ s.own a →
      z ∈ update s.own (.slot g) {x} a ∧ z ∈ insert x (s.elsewhere p) := by
    intro a z ha hpart hz
    refine ⟨?_, .inr ⟨a, hpart, hz⟩⟩
    rw [update_of_ne ha]
    exact hz
  refine hpool.combine id (Owner.part p) hfits.pool (Set.empty_subset _) fun a z hz => ?_
  cases a with
  | slot g' =>
    by_cases heq : g' = g
    · subst heq
      have hz : z = x := hz.2.symm.trans h.pa
      refine .inl ⟨.slot g', rfl, ?_, .inl hz⟩
      rw [update_self]
      exact hz
    · have hz0 : z ∈ s.own (.slot g') := by
        have hslot := h.slots g' heq
        exact ⟨hslot ▸ hz.1, hslot ▸ hz.2⟩
      exact .inl ⟨.slot g', rfl, hold (fun h => heq (Owner.slot.inj h)) nofun hz0⟩
  | stack q => exact .inl ⟨.stack q, rfl, hold (by simp) nofun (h.stack hz)⟩
  | part q k =>
    by_cases hq : q = p
    · subst hq
      obtain ⟨-, d1, hd1, hz⟩ := hz
      cases h.pgdir.symm.trans hd1
      exact .inr ⟨k, rfl, hz⟩
    · have hz0 := h.part hq (fun d v e _ _ _ hmem => by rw [h.frames]; exact .inr hmem) hz
      exact .inl ⟨.part q k, rfl, hold (by simp) (fun k' heq => hq (Owner.part.inj heq).1) hz0⟩

theorem aligned (hinv : PageInv s) (haligned : (s.proc p).sz % PGSIZE = 0) {q : PIdx}
    {j g' : ShmIdx}
    (hj : s'.shmRef (q, j) = some g') : ((s'.proc q).shared_mem j).va % PGSIZE = 0 := by
  by_cases hk : (q, j) = (p, i)
  · cases hk
    rw [h.va]
    exact haligned
  · rw [h.ref hk] at hj
    rw [h.entry hk]
    exact hinv.aligned hj

/-- The new entry is apart from the others of the process. -/
theorem va_ne (haligned : (s.proc p).sz % PGSIZE = 0)
    (hclear : ∀ j, ((s.proc p).shared_mem j).in_use = true →
      ((s.proc p).shared_mem j).va / PGSIZE ≠ pages (s.proc p).sz) {j g' : ShmIdx} (hji : j ≠ i)
    (hj : s'.shmRef (p, j) = some g') :
    ((s'.proc p).shared_mem j).va / PGSIZE ≠ ((s'.proc p).shared_mem i).va / PGSIZE := by
  have hk : (p, j) ≠ (p, i) := fun heq => hji (congrArg Prod.snd heq)
  rw [h.ref hk] at hj
  rw [h.entry hk, h.va]
  have hne := hclear j (in_use_of_shmRef hj)
  unfold pages PGSIZE at hne
  unfold PGSIZE at haligned ⊢
  omega

theorem apart (hinv : PageInv s) (haligned : (s.proc p).sz % PGSIZE = 0)
    (hclear : ∀ j, ((s.proc p).shared_mem j).in_use = true →
      ((s.proc p).shared_mem j).va / PGSIZE ≠ pages (s.proc p).sz) {q : PIdx} {j k g1 g2 : ShmIdx}
    (hj : s'.shmRef (q, j) = some g1) (hk : s'.shmRef (q, k) = some g2)
    (hva : ((s'.proc q).shared_mem j).va / PGSIZE = ((s'.proc q).shared_mem k).va / PGSIZE) :
    j = k := by
  by_contra hjk
  by_cases hji : (q, j) = (p, i)
  · cases hji
    exact h.va_ne haligned hclear (Ne.symm hjk) hk hva.symm
  by_cases hki : (q, k) = (p, i)
  · cases hki
    exact h.va_ne haligned hclear hjk hj hva
  · rw [h.ref hji] at hj
    rw [h.ref hki] at hk
    rw [h.entry hji, h.entry hki] at hva
    exact hjk (hinv.apart hj hk hva)

end Attached

/-- `shm_get` needs an image that ends at the end of a page, and no entry in use for the page behind
it. -/
def Kernel.endsClear (s : Kernel) (p : PIdx) : Prop :=
  (s.proc p).sz % PGSIZE = 0 ∧ ∀ j, ((s.proc p).shared_mem j).in_use = true →
    ((s.proc p).shared_mem j).va / PGSIZE ≠ pages (s.proc p).sz

/-- The page `x` of the slot `g` is mapped behind the image, and the entry `i` is for it. Before
that the page is with the slot, or in no address space. -/
theorem PageInv.attach {x : ℕ} {m1 : Kmem} {pa perm : ℕ} (hinv : PageInv s) (hshm : ShmInv s)
    (h : Attached s s' p i g x d') (hclear : s.endsClear p)
    (hpool : Pool ∅ m1.free (Function.update s.own (.slot g) {x}))
    (hfits : Fits (insert x (s.elsewhere p)) (insert x s.frames) (s.uses p) d m1)
    (hnew : x ∈ s.frames ∨ ∀ {q d v e}, s.live q → (s.proc q).pgdir = some d →
      d.pte v = some e → e.ppn ≠ x) (hpa : pa / PGSIZE = x)
    (hmap : mappages d m1 (pages (s.proc p).sz * PGSIZE) PGSIZE pa perm = .ok (true, d', s'.km)) :
    PageInv s' := by
  obtain ⟨haligned, hclear⟩ := hclear
  have hfits' : Fits (insert x (s.elsewhere p)) s'.frames (s'.uses p) d' s'.km := by
    rw [mappages_page] at hmap
    rw [h.frames]
    refine (hfits.weaken fun v z => h.uses_of hshm).mapPage_shared (.inl hpa) ?_ hmap
    rw [hpa]
    exact h.uses_self haligned
  refine ⟨h.pool hpool hfits', fun {q d1} hq hd1 v e he hmem => ?_, h.aligned hinv haligned,
    h.apart hinv haligned hclear⟩
  by_cases hqp : q = p
  · subst hqp
    cases h.pgdir.symm.trans hd1
    exact hfits'.backed v e he hmem
  · have hq0 := (h.live q).mp hq
    rw [h.others q hqp] at hd1
    rw [h.frames] at hmem
    refine h.uses_of hshm (hinv.backed hq0 hd1 v e he ?_)
    obtain hx | hmem := hmem
    · exact hnew.elim (fun h => hx ▸ h) fun h => absurd hx (h hq0 hd1 he)
    · exact hmem

section Got

variable {name : Bytes} (hinv : PageInv s) (hshm : ShmInv s) (hp : s.live p)
  (hd : (s.proc p).pgdir = some d) (hi : ((s.proc p).shared_mem i).in_use = false)
  (hclear : s.endsClear p)

include hinv hshm hp hd hi hclear

theorem PageInv.join (hcount : 0 < (s.shm g).refcount)
    (hmap : mappages d s.km (pages (s.proc p).sz * PGSIZE) PGSIZE (s.shm g).pa (PTE_W ||| PTE_U) =
      .ok (true, d', m)) :
    PageInv { (s.setProc p ((s.proc p).attached d' name i g)).setShm g
      ((s.shm g).joined (s.proc p).container_id) with km := m } := by
  have hfits := hinv.fits hp hd
  have hmem : (s.shm g).pa / PGSIZE ∈ s.frames := ⟨g, hcount, rfl⟩
  have hown : Function.update s.own (.slot g) {(s.shm g).pa / PGSIZE} = s.own := by
    rw [update_eq_self_iff]
    ext x
    exact ⟨fun hx => ⟨hcount, hx.symm⟩, fun hx => hx.2.symm⟩
  have hpos : 0 < ((s.shm g).joined (s.proc p).container_id).refcount := by
    have hlt := hshm.lt g
    have hinc : ((s.shm g).joined (s.proc p).container_id).refcount = uinc (s.shm g).refcount := rfl
    rw [hinc, uinc_of_lt (by omega)]
    exact Nat.succ_pos _
  refine hinv.attach hshm (attached_of d' m name hp hi hpos rfl fun _ => rfl) hclear ?_ ?_
    (.inl hmem) rfl hmap
  · show Pool ∅ s.km.free (Function.update s.own (.slot g) {(s.shm g).pa / PGSIZE})
    rw [hown]
    exact hinv.pool
  · show Fits (insert ((s.shm g).pa / PGSIZE) _) (insert ((s.shm g).pa / PGSIZE) _) _ _ _
    rw [Set.insert_eq_of_mem hmem, Set.insert_eq_of_mem (hfits.shared hmem)]
    exact hfits

theorem PageInv.make {page : ℕ} {free : List ℕ} {y : SharedMem} (hzero : (s.shm g).refcount = 0)
    (hfree : s.km.free = page :: free) (hcount : 0 < y.refcount) (hpa : y.pa = page * PGSIZE)
    (hmap : mappages d (Kmem.zero { s.km with free := free } page)
      (pages (s.proc p).sz * PGSIZE) PGSIZE (page * PGSIZE) (PTE_W ||| PTE_U) = .ok (true, d', m)) :
    PageInv { (s.setProc p ((s.proc p).attached d' name i g)).setShm g y with km := m } := by
  have hpage : page * PGSIZE / PGSIZE = page := Nat.mul_div_cancel page (by decide)
  have hnotMapped : ∀ {q d v e}, s.live q → (s.proc q).pgdir = some d → d.pte v = some e →
      e.ppn ≠ page :=
    fun hq hd he heq => (hinv.fits hq hd).notFree he (heq ▸ hfree ▸ List.mem_cons_self)
  refine hinv.attach hshm (attached_of d' m name hp hi hcount (by rw [hpa, hpage]) ?_) hclear ?_ ?_
    (.inr hnotMapped) hpage hmap
  · exact fun hpos => absurd hzero hpos.ne'
  · -- The page goes from the free list to the slot.
    have hpool := hinv.pool
    rw [hfree] at hpool
    refine hpool.take.give (Set.notMem_empty page) (a := .slot g) fun a x hx => ?_
    rw [update_apply] at hx
    split_ifs at hx with ha
    · exact .inr ⟨ha, hx⟩
    · exact .inl hx
  · have hfits : Fits (insert page (s.elsewhere p)) s.frames (s.uses p) d
        (Kmem.zero { s.km with free := free } page) := (hinv.fits hp hd).take hfree rfl
    have hback : ∀ v e, d.pte v = some e → e.ppn ∈ insert page s.frames → e.ppn ∈ s.frames :=
      fun v e he hmem => hmem.resolve_left (hnotMapped hp hd he)
    refine ⟨hfits.pool.mono subset_rfl fun k x hx => ?_, ?_, fun v e he hmem => ?_⟩
    · exact Pgdir.own_anti (fun v e _ hmem => .inr hmem) hx
    · exact Set.insert_subset_insert (frames_subset_elsewhere s p)
    · exact hfits.backed v e he (hback v e he hmem)

end Got

theorem ShmGot.pageInv {name : Bytes} (h : ShmGot s p d name i s') (hinv : PageInv s)
    (hshm : ShmInv s) (hp : s.live p) (hd : (s.proc p).pgdir = some d)
    (hi : ((s.proc p).shared_mem i).in_use = false) (hname : strlen name ≠ 0)
    (hclear : s.endsClear p)
    (hpage : (∃ g, s.shmNamed name (s.proc p).container_id g = true) ∨ s.km.free ≠ []) :
    PageInv s' := by
  cases h with
  | refused => exact hinv
  | noTable g d1 m hmap =>
    rw [mappages_page] at hmap
    obtain ⟨-, -, ⟨-, rfl, rfl, -⟩ | ⟨hok, -⟩⟩ := mapPage_cases hmap
    · exact hinv.update ⟨rfl, rfl, rfl, rfl⟩ (hinv.fits hp hd)
    · cases hok
  | joined g d1 m hg hmap =>
    have huse := hshm.in_use_of_named hname (shmNamed_of_findShm hg)
    exact hinv.join hshm hp hd hi hclear ((hshm.count g).symm ▸ (hshm.use g).mp huse) hmap
  | noPage g hg hfree hnone =>
    obtain ⟨g', hg'⟩ | hpage := hpage
    · exact absurd hg' (List.find?_eq_none.mp hg g' (List.mem_finRange g'))
    · exact absurd hnone hpage
  | made g page free d1 m hg hfree hcons hlen hmap =>
    have hzero := hshm.unreferenced (freeShm_eq_some hfree)
    refine hinv.make hshm hp hd hi hclear hzero hcons ?_ rfl hmap
    have hinc : uinc (s.shm g).refcount = 1 := by rw [hzero]; rfl
    exact lt_of_lt_of_eq Nat.one_pos hinc.symm

theorem shmGet_pageInv {name : Bytes} {r : Int} (h : shmGet s p name = .ok (r, s'))
    (hinv : PageInv s) (hshm : ShmInv s) (hp : s.live p) (hshare : s.canShare p name)
    (hclear : s.endsClear p) : PageInv s' := by
  obtain ⟨hname, hi, hpage⟩ := hshare
  obtain ⟨i, hi⟩ := freeShmem_of_exists hi
  obtain ⟨d, hd, hgot⟩ := shmGet_cases h hi
  exact hgot.pageInv hinv hshm hp hd (freeShmem_eq_some hi) hname hclear hpage

/-! ## Removal and exit -/

/-- The entry `i` of `p` refers to nothing any more, and its page is unmapped in the address space
`d`. The slots of the other references have stayed. -/
structure Detached (s s' : Kernel) (p : PIdx) (i : ShmIdx) (d : Pgdir) :
    Prop extends EntryOnly s s' p i where
  self : s'.shmRef (p, i) = none
  pgdir : (s'.proc p).pgdir = some (d.setPte (((s.proc p).shared_mem i).va / PGSIZE) none)
  slots : ∀ {k g'}, k ≠ (p, i) → s.shmRef k = some g' →
    (s'.shm g').pa = (s.shm g').pa ∧ 0 < (s'.shm g').refcount
  slots_old : ∀ {g'}, 0 < (s'.shm g').refcount →
    (s'.shm g').pa = (s.shm g').pa ∧ 0 < (s.shm g').refcount

theorem ShmRemoved.entryOnly (h : ShmRemoved s p d g i s') : EntryOnly s s' p i := by
  have hself : s'.proc p = (s.proc p).detached d i := by rw [h.proc, update_self]
  refine ⟨fun q hq => ?_, ?_, ?_, fun j hj => ?_⟩
  · rw [h.proc, update_of_ne hq]
  · rw [hself, Proc.detached_state]
  · rw [hself, Proc.detached_kstack]
  · rw [hself, Proc.detached_shared_mem, update_of_ne hj]

/-- The slots after a removal: the one of the entry is still there unless the count was one. -/
theorem ShmRemoved.slot_refcount (h : ShmRemoved s p d g i s') (hshm : ShmInv s)
    (hi : s.shmRef (p, i) = some g) (g' : ShmIdx) :
    (g' = g ∧ (s.shm g).refcount = 1 ∧ (s'.shm g').refcount = 0) ∨
      (s'.shm g').pa = (s.shm g').pa ∧ (0 < (s'.shm g').refcount ↔ 0 < (s.shm g').refcount) := by
  have hpos := hshm.refcount_pos hi
  have hlt := hshm.lt g
  by_cases hg : g' = g
  · subst hg
    cases h with
    | last e m h1 =>
      refine .inl ⟨rfl, h1, ?_⟩
      show (((s.setProc p _).setShm g' (s.shm g').dealloc).shm g').refcount = 0
      rw [setShm_shm, if_pos rfl]
      rfl
    | dropped h1 =>
      rw [setShm_shm, if_pos rfl]
      refine .inr ⟨rfl, ?_⟩
      show 0 < udec (s.shm g').refcount ↔ _
      rw [udec_of_pos hpos (by omega)]
      omega
  · have hsame : s'.shm g' = s.shm g' := by
      cases h with
      | last => exact update_of_ne hg ..
      | dropped => exact update_of_ne hg ..
    rw [hsame]
    exact .inr ⟨rfl, Iff.rfl⟩

theorem ShmRemoved.detached (h : ShmRemoved s p d g i s') (hshm : ShmInv s) (hp : s.live p)
    (hi : s.shmRef (p, i) = some g) : Detached s s' p i d := by
  refine ⟨h.entryOnly, ?_, ?_, fun {k g'} hk hg' => ?_, fun {g'} hg' => ?_⟩
  · rw [h.ref hp, update_self]
  · rw [h.proc, update_self, Proc.detached_pgdir]
  · obtain ⟨rfl, hone, -⟩ | ⟨hpa, hcount⟩ := h.slot_refcount hshm hi g'
    · -- Two references are more than one.
      have hlt := one_lt_card_refs hg' hi hk
      rw [← hshm.count, hone] at hlt
      exact absurd hlt (Nat.lt_irrefl 1)
    · exact ⟨hpa, hcount.mpr (hshm.refcount_pos hg')⟩
  · obtain ⟨-, -, hzero⟩ | ⟨hpa, hcount⟩ := h.slot_refcount hshm hi g'
    · exact absurd hzero hg'.ne'
    · exact ⟨hpa, hcount.mp hg'⟩

namespace Detached

variable (h : Detached s s' p i d)

include h

theorem frames_subset : s'.frames ⊆ s.frames := by
  rintro x ⟨g', hg', rfl⟩
  obtain ⟨hpa, hpos⟩ := h.slots_old hg'
  exact ⟨g', hpos, by rw [hpa]⟩

theorem ne {k : PIdx × ShmIdx} {g' : ShmIdx} (hk : s'.shmRef k = some g') : k ≠ (p, i) := by
  rintro rfl
  cases h.self.symm.trans hk

theorem uses_of {q : PIdx} {v z : ℕ} (hv : q = p → v ≠ ((s.proc p).shared_mem i).va / PGSIZE)
    (hq : s.uses q v z) : s'.uses q v z ∧ z ∈ s'.frames := by
  obtain ⟨j, g', hj, rfl, rfl⟩ := hq
  have hk : (q, j) ≠ (p, i) := by
    rintro ⟨⟩
    exact hv rfl rfl
  obtain ⟨hpa, hpos⟩ := h.slots hk hj
  exact ⟨⟨j, g', by rw [h.ref hk, hj], by rw [h.entry hk], by rw [hpa]⟩, g', hpos, by rw [hpa]⟩

theorem mapped (hd : (s.proc p).pgdir = some d) {q : PIdx} {d1 : Pgdir} {v : ℕ} {e : Pte}
    (hd1 : (s'.proc q).pgdir = some d1) (he : d1.pte v = some e) :
    (∃ d0, (s.proc q).pgdir = some d0 ∧ d0.pte v = some e) ∧
      (q = p → v ≠ ((s.proc p).shared_mem i).va / PGSIZE) := by
  by_cases hq : q = p
  · subst hq
    cases h.pgdir.symm.trans hd1
    rw [Pgdir.pte_setPte_none, update_apply] at he
    split_ifs at he with hv
    exact ⟨⟨d, hd, he⟩, fun _ => hv⟩
  · rw [h.others q hq] at hd1
    exact ⟨⟨d1, hd1, he⟩, fun heq => absurd heq hq⟩

theorem backed (hinv : PageInv s) (hd : (s.proc p).pgdir = some d) {q : PIdx} {d1 : Pgdir}
    {v : ℕ} {e : Pte} (hq : s'.live q) (hd1 : (s'.proc q).pgdir = some d1) (he : d1.pte v = some e)
    (hmem : e.ppn ∈ s.frames) : s'.uses q v e.ppn ∧ e.ppn ∈ s'.frames := by
  obtain ⟨⟨d0, hd0, he0⟩, hv⟩ := h.mapped hd hd1 he
  exact h.uses_of hv (hinv.backed ((h.live q).mp hq) hd0 v e he0 hmem)

theorem own_of (hinv : PageInv s) (hd : (s.proc p).pgdir = some d) {a : Owner} {x : ℕ}
    (hx : x ∈ s'.own a) :
    x ∈ s.own a ∧ a ≠ .part p (.user (((s.proc p).shared_mem i).va / PGSIZE)) := by
  cases a with
  | slot g' =>
    obtain ⟨hpa, hpos⟩ := h.slots_old hx.1
    exact ⟨⟨hpos, hpa ▸ hx.2⟩, nofun⟩
  | stack q => exact ⟨h.stack hx, nofun⟩
  | part q k =>
    obtain ⟨hq, d1, hd1, hx⟩ := hx
    have hx1 : x ∈ d1.own s.frames k :=
      Pgdir.own_anti (fun v e he hmem => (h.backed hinv hd hq hd1 he hmem).2) hx
    have hq0 := (h.live q).mp hq
    by_cases hqp : q = p
    · subst hqp
      cases h.pgdir.symm.trans hd1
      obtain ⟨hx0, hk⟩ := Fits.own_setPte_none hx1
      exact ⟨⟨hq0, d, hd, hx0⟩, fun heq => hk (Owner.part.inj heq).2⟩
    · rw [h.others q hqp] at hd1
      exact ⟨⟨hq0, d1, hd1, hx1⟩, fun heq => hqp (Owner.part.inj heq).1⟩

/-- The invariant, when it is known of `q`. -/
theorem pageInv (hinv : PageInv s) (hd : (s.proc p).pgdir = some d)
    (hpool : Pool ∅ s'.km.free s'.own) : PageInv s' where
  pool := hpool
  backed hq hd1 _ _ he hmem := (h.backed hinv hd hq hd1 he (h.frames_subset hmem)).1
  aligned hj := by
    have hk := h.ne hj
    rw [h.ref hk] at hj
    rw [h.entry hk]
    exact hinv.aligned hj
  apart hj hj' hva := by
    have hk := h.ne hj
    have hk' := h.ne hj'
    rw [h.ref hk] at hj
    rw [h.ref hk'] at hj'
    rw [h.entry hk, h.entry hk'] at hva
    exact hinv.apart hj hj' hva

end Detached

/-- A removal: the page that is freed with the last reference is the one of the slot, or one that
only this process has. -/
theorem ShmRemoved.pageInv (h : ShmRemoved s p d g i s') (hinv : PageInv s) (hshm : ShmInv s)
    (hp : s.live p)
    (hd : (s.proc p).pgdir = some d) (hi : s.shmRef (p, i) = some g) : PageInv s' := by
  have hdet := h.detached hshm hp hi
  refine hdet.pageInv hinv hd ?_
  have hown := fun a x => hdet.own_of (a := a) (x := x) hinv hd
  cases h with
  | dropped => exact hinv.pool.mono subset_rfl fun a x hx => (hown a x hx).1
  | last e m hcount he hm =>
    obtain ⟨-, -, rfl⟩ := kfree_eq_ok hm
    refine hinv.pool.put ((hinv.fits hp hd).notFree he) subset_rfl (fun a x hx => (hown a x hx).1)
      (Set.notMem_empty _) fun a ha => ?_
    obtain ⟨ha0, hne⟩ := hown a _ ha
    by_cases hS : e.ppn ∈ s.frames
    · -- The page is of a slot, so an entry backs it, and this can only be the one that is removed.
      obtain ⟨j, g', hj, hv, hg'⟩ := hinv.backed hp hd _ e he hS
      obtain rfl := hinv.apart hj hi hv
      cases hi.symm.trans hj
      have hslot : e.ppn ∈ s.own (.slot g) := ⟨hshm.refcount_pos hi, hg'⟩
      obtain rfl := hinv.pool.unique ha0 hslot
      have hself : (update s.shm g (s.shm g).dealloc) g = (s.shm g).dealloc := update_self ..
      have hpos : 0 < ((update s.shm g (s.shm g).dealloc) g).refcount := ha.1
      rw [hself] at hpos
      exact absurd hpos (Nat.lt_irrefl 0)
    · exact hne (hinv.pool.unique ha0 ⟨hp, d, hd, Fits.mem_own he hS⟩)

theorem shmRem_pageInv {name : Bytes} {r : Int} (h : shmRem s p name = .ok (r, s'))
    (hinv : PageInv s)
    (hshm : ShmInv s) (hp : s.live p) (hown : s.removesOwn p name) : PageInv s' := by
  obtain ⟨rfl, -⟩ | ⟨g, i, d, hg, hi, hd, -, hrem⟩ := shmRem_cases h
  · exact hinv
  · obtain ⟨huse, hptr⟩ := hown g i (shmNamed_of_findShm hg) (shmemNamed_of_findShmem hi)
    exact hrem.pageInv hinv hshm hp hd ((shmRef_of_in_use hp huse).trans hptr)

theorem Passed.pageSame (h : Passed p s s') (hp : s.live p) : PageSame s s' where
  live q := by
    by_cases hq : q = p
    · subst hq
      exact iff_of_true (by simp [Kernel.live, h.zombie]) hp
    · exact not_congr (ProcState.unused_iff (h.awake hq))
  pgdir q _ := h.field Proc.pgdir (fun _ _ _ _ => rfl) q
  kstack q _ := h.field Proc.kstack (fun _ _ _ _ => rfl) q
  shared_mem q _ := h.field Proc.shared_mem (fun _ _ _ _ => rfl) q
  shm := h.shm
  free := by rw [h.km]

theorem exit_pageInv (h : exit s p = .ok s') (hinv : PageInv s) (hshm : ShmInv s) (hp : s.live p)
    (hlisted : ∀ i, ((s.proc p).shared_mem i).in_use = true → s.listed p i) : PageInv s' := by
  obtain ⟨-, s1, s2, hfiles, hexit, hpassed⟩ := exit_cases h
  rw [closeFiles_of_none (hshm.files p)] at hfiles
  cases hfiles
  have hinv2 := (exitShm_rule (I := PageInv)
    (fun hshm hp hd hi hrem hinv => hrem.pageInv hinv hshm hp hd hi)
    hexit hshm hp hlisted hinv).1
  have hmux : PageSame s2 (exitMutexes s2 p) := .of_memSame (exitMutexes_memSame s2 p)
  have hp2 : s2.live p := ((exitShm_quiet hexit).live p).mpr hp
  exact hinv2.of_same (hmux.trans (hpassed.pageSame ((hmux.live p).mpr hp2)))

/-! ## Wait -/

/-- A slot of the process table whose process is gone. -/
theorem PageInv.remove {q : PIdx} {x : Proc} (hinv : PageInv s) (hx : x.state = .UNUSED)
    (hpool : Pool {y | ∃ a, a ≠ .stack q ∧ (∀ k, a ≠ .part q k) ∧ y ∈ s.own a} m.free noPages) :
    PageInv (s.withProc q x m) := by
  have honly := procOnly_withProc s q x m
  have hdead : ¬ (s.withProc q x m).live q := by
    rw [Kernel.live, not_not]
    exact (congrArg Proc.state (setProc_self s q x)).trans hx
  have href : ∀ {i g}, (s.withProc q x m).shmRef (q, i) ≠ some g :=
    fun hi => hdead (live_of_shmRef hi)
  refine honly.pageInv hinv ?_ (fun hq => absurd hq hdead) (fun hi => absurd hi href) fun hi =>
    absurd hi href
  refine honly.pool hinv.pool hpool (fun a ha ha' y hy => ⟨hy, a, ha, ha', hy⟩) ?_ ?_
  · exact fun y hy => absurd hy.1 hdead
  · exact fun j y hy => absurd hy.1 hdead

theorem wait_pageInv {r : Option Int} (h : wait s p = .ok (r, s')) (hinv : PageInv s)
    (hshm : ShmInv s) (hp : s.canRun p) : PageInv s' := by
  obtain ⟨q, page, d, m1, m2, c, hq, hpage, hd, hm1, hm2, -, rfl⟩ | rfl | rfl := wait_cases h
  · obtain ⟨-, hzombie⟩ := zombieChild_eq_some hq
    have hlive : s.live q := by
      simp [Kernel.live, hzombie]
    have hstack : page ∈ s.own (.stack q) := ⟨hlive, hpage⟩
    have hfits := hinv.fits hlive hd
    -- First the stack goes to the free list, then the address space.
    let kept : Set ℕ := {y | ∃ a, a ≠ .stack q ∧ (∀ k, a ≠ .part q k) ∧ y ∈ s.own a}
    have hfits1 : Fits kept s.frames (s.uses q) d m1 := by
      obtain ⟨-, -, rfl⟩ := kfree_eq_ok hm1
      refine ⟨hfits.pool.put (hinv.pool.notFree hstack) ?_ (fun _ => subset_rfl) ?_ ?_, ?_,
        hfits.backed⟩
      · rintro x ⟨a, -, ha, hx⟩
        exact ⟨a, ha, hx⟩
      · rintro ⟨a, ha, -, hx⟩
        exact ha (hinv.pool.unique hx hstack)
      · exact fun k hk => hfits.pool.notKept hk ⟨.stack q, by simp, hstack⟩
      · rintro x ⟨g, hx⟩
        exact ⟨.slot g, by simp, by simp, hx⟩
    have hunused : ∀ v x, ¬ s.uses q v x := by
      rintro v x ⟨i, g, hi, -⟩
      rw [hshm.zombie i hzombie] at hi
      cases hi
    have hdone := freevm_pool hfits1 hunused hm2
    have hremoved : PageInv (s.withProc q (s.proc q).freed m2) := hinv.remove rfl hdone
    exact hremoved.of_same (.of_proc rfl rfl rfl)
  · exact hinv
  · refine hinv.of_same (.of_memSame (.setProc ?_))
    unfold Proc.view
    dsimp only
    rcases hp with hp | hp <;> rw [hp] <;> rfl

/-! ## Fork -/

theorem mem_heldPages {a : ℕ × ℕ} (hp : s.live p) (ha : a ∈ s.heldPages p) :
    ∃ i g, s.shmRef (p, i) = some g ∧ a = ((s.shm g).pa, ((s.proc p).shared_mem i).va) := by
  obtain ⟨i, -, hi⟩ := List.mem_filterMap.mp ha
  dsimp only at hi
  split_ifs at hi with huse
  obtain ⟨g, hg, rfl⟩ := Option.map_eq_some_iff.mp hi
  exact ⟨i, g, (shmRef_of_in_use hp huse).trans hg, rfl⟩

theorem heldPages_of_unused (h : ∀ i, ((s.proc p).shared_mem i).in_use = false) :
    s.heldPages p = [] := by
  refine List.filterMap_eq_nil_iff.mpr fun i _ => ?_
  simp only [h i]
  rfl

/-- `fork` by a process with this name does not copy a shared page, or has memory enough for the
whole copy. -/
def Kernel.forksWhole (s : Kernel) (p : PIdx) (name : Bytes) : Prop :=
  isCm name = true ∨ (∀ i, ((s.proc p).shared_mem i).in_use = false) ∨
    NKERNTABLES + 2 + 2 * pages (s.proc p).sz ≤ s.km.free.length

section Copy

variable {page : ℕ} {free : List ℕ} {q : Pqueue} {mem : Mem}

/-- The copy of the parent's address space for the slot `np`, with a stack in `page`. -/
theorem PageInv.copy {r : Option Pgdir} (hinv : PageInv s) (hshm : ShmInv s) (hp : s.live p)
    (hnp : (s.proc np).state = .UNUSED) (hfree : s.km.free = page :: free)
    (hwhole : s.forksWhole p (s.proc p).name)
    (hrun : copyuvm (s.stacked np page free q mem) p d (s.proc p).sz = .ok (r, m)) :
    Built (insert page (s.elsewhere np)) s.frames
      (fun v x => isCm (s.proc p).name = false ∧ s.uses p v x) r m := by
  have hne : p ≠ np := fun heq => hp (heq ▸ hnp)
  have hparent : (s.stacked np page free q mem).proc p = s.proc p := update_of_ne hne ..
  have hroom := hinv.room np
  rw [hfree] at hroom
  have hheld : ∀ a ∈ (s.stacked np page free q mem).heldPages p, a ∈ s.heldPages p := by
    unfold Kernel.heldPages
    rw [hparent]
    exact fun a ha => ha
  refine copyuvm_fits hroom.take ?_ (fun a ha => ?_) ?_ hrun
  · exact (frames_subset_elsewhere s np).trans (Set.subset_insert _ _)
  · obtain ⟨i, g, hi, rfl⟩ := mem_heldPages hp (hheld a ha)
    refine ⟨⟨g, hshm.refcount_pos hi, rfl⟩, hinv.aligned hi, fun hcm => ⟨?_, i, g, hi, rfl, rfl⟩⟩
    rwa [hparent] at hcm
  · obtain hcm | hclear | hlen := hwhole
    · exact .inl fun v x hT => absurd (hcm.symm.trans hT.1) nofun
    · refine .inl fun v x ⟨_, i, g, hi, _⟩ => ?_
      rw [shmRef_of_free (hclear i)] at hi
      cases hi
    · refine .inr ?_
      rw [hfree, List.length_cons] at hlen
      show NKERNTABLES + 1 + 2 * pages (s.proc p).sz ≤ free.length
      omega

theorem PageInv.notMem_elsewhere (hinv : PageInv s) (hfree : s.km.free = page :: free) :
    page ∉ s.elsewhere p := fun ⟨_, _, ha⟩ => hinv.pool.notFree ha (hfree ▸ List.mem_cons_self)

theorem ForkFailed.pageInv {s1 : Kernel} (h : ForkFailed s1 p d s') (hinv : PageInv s1)
    (hshm : ShmInv s1)
    (hp : s1.live p) (hwhole : s1.forksWhole p (s1.proc p).name) : PageInv s' := by
  cases h with
  | noSlot => exact hinv
  | noStack np q mem hnp =>
    have hslot : PageInv (s1.setProc np
        { (s1.proc np).embryo s1.nextpid with kstack := none, state := .UNUSED }) :=
      hinv.of_same (.of_unused hnp.unused rfl)
    exact hslot.of_same (.of_proc rfl rfl rfl)
  | noCopy np page free q mem m m' hnp hfree hcopy hkfree =>
    have hne : p ≠ np := fun heq => hp (heq ▸ hnp.unused)
    have hsz : ((s1.stacked np page free q mem).proc p).sz = (s1.proc p).sz :=
      congrArg Proc.sz (update_of_ne hne ..)
    rw [hsz] at hcopy
    have hpool : Pool (insert page (s1.elsewhere np)) m.free noPages :=
      hinv.copy hshm hp hnp.unused hfree hwhole hcopy
    obtain ⟨-, -, rfl⟩ := kfree_eq_ok hkfree
    have hslot : PageInv (s1.withProc np
        { (s1.proc np).embryo s1.nextpid with kstack := none, pgdir := none, state := .UNUSED }
        { m with free := page :: m.free, mem := update m.mem page (freedPage m.free) }) := by
      refine hinv.remove rfl
        (hpool.put (hpool.kept_notFree (Set.mem_insert _ _)) ?_ (fun _ => subset_rfl)
        ?_ fun _ => Set.notMem_empty _)
      · exact fun x ⟨a, _, ha, hx⟩ => .inr ⟨a, ha, hx⟩
      · exact fun ⟨a, _, ha, hx⟩ => hinv.notMem_elsewhere hfree ⟨a, ha, hx⟩
    exact hslot.of_same (.of_proc rfl rfl rfl)

theorem ForkOk.procOnly {s1 : Kernel} (h : ForkOk s1 p np d s') (hp : s1.live p) (hshm : ShmInv s1)
    (hshm' : ShmInv s')
    (hchild : ∀ i, s'.shmRef (np, i) = if isCm (s1.proc p).name then none else s1.shmRef (p, i))
    (hpa : ∀ g, (s'.shm g).pa = (s1.shm g).pa) : ProcOnly s1 s' np := by
  have hothers := (h.made hp).others
  refine ⟨fun hr => hothers _ hr, hpa, fun g => ⟨fun hg => ?_, fun hg => ?_⟩⟩
  · rw [hshm'.count] at hg
    obtain ⟨⟨r, i⟩, hk⟩ := card_refs_pos_iff.mp hg
    by_cases hr : r = np
    · subst hr
      rw [hchild] at hk
      split_ifs at hk
      exact hshm.refcount_pos hk
    · unfold Kernel.shmRef at hk
      rw [hothers r hr] at hk
      exact hshm.refcount_pos (k := (r, i)) hk
  · rw [hshm.count] at hg
    obtain ⟨⟨r, i⟩, hk⟩ := card_refs_pos_iff.mp hg
    have hr : r ≠ np := by
      rintro rfl
      exact live_of_shmRef hk h.unused
    refine hshm'.refcount_pos (k := (r, i)) ?_
    unfold Kernel.shmRef at hk ⊢
    rw [hothers r hr]
    exact hk

theorem ForkOk.pageInv {s1 : Kernel} (h : ForkOk s1 p np d s') (hinv : PageInv s1)
    (hshm : ShmInv s1) (hp : s1.live p) (hstale : s1.noStale p (s1.proc p).name)
    (hwhole : s1.forksWhole p (s1.proc p).name) : PageInv s' := by
  obtain ⟨hshm', hchild⟩ := h.shmInv hshm hp hstale
  obtain ⟨page, free, q, mem, d', m, hfree, hcopy, hstack, hpgdir, -, hkm, hpa, hva⟩ := h.memory hp
  have honly := h.procOnly hp hshm hshm' hchild hpa
  have hfits : Fits (insert page (s1.elsewhere np)) s1.frames
      (fun v x => isCm (s1.proc p).name = false ∧ s1.uses p v x) d' m :=
    hinv.copy hshm hp h.unused hfree hwhole hcopy
  -- An entry of the child in use is one of its parent, with the same address.
  have hentry : ∀ {i g}, s'.shmRef (np, i) = some g → s1.shmRef (p, i) = some g ∧
      ((s'.proc np).shared_mem i).va = ((s1.proc p).shared_mem i).va := by
    intro i g hi
    rw [hchild] at hi
    split_ifs at hi with hcm
    exact ⟨hi, hva (by simpa using hcm) i⟩
  refine honly.pageInv hinv ?_ (fun {d1} hlive hd1 v e he hS => ?_) (fun {i g} hi => ?_)
    fun {i j g g'} hi hj hij => ?_
  · exact honly.spawn hinv hfree (hfits.congr hkm) hstack hpgdir
  · cases hpgdir.symm.trans hd1
    rw [honly.frames] at hS
    obtain ⟨hcm, i, g, hi, hv, hx⟩ := hfits.backed v e he hS
    refine ⟨i, g, ?_, ?_, ?_⟩
    · rw [hchild, if_neg (by simp [hcm]), hi]
    · rw [hva hcm, hv]
    · rw [hpa, hx]
  · obtain ⟨hi, hva⟩ := hentry hi
    rw [hva]
    exact hinv.aligned hi
  · obtain ⟨hi, hvai⟩ := hentry hi
    obtain ⟨hj, hvaj⟩ := hentry hj
    rw [hvai, hvaj] at hij
    exact hinv.apart hi hj hij

end Copy

theorem fork_pageInv {r : Int} (h : fork s p = .ok (r, s')) (hinv : PageInv s) (hshm : ShmInv s)
    (hp : s.live p) (hstale : s.noStale p (s.proc p).name)
    (hwhole : s.forksWhole p (s.proc p).name) : PageInv s' := by
  obtain ⟨d, -, ⟨-, rfl, -⟩ | ⟨s1, hs1, hrest⟩⟩ := fork_cases h
  · exact hinv
  have hinv1 : PageInv s1 := hinv.of_same (.of_proc hs1.proc hs1.shm (by rw [hs1.km]))
  have hshm1 : ShmInv s1 := hshm.of_proc hs1.proc hs1.shm
  have hp1 : s1.live p := by rwa [Kernel.live, hs1.proc]
  have hwhole1 : s1.forksWhole p (s1.proc p).name := by
    unfold Kernel.forksWhole
    rw [hs1.proc, hs1.km]
    exact hwhole
  obtain ⟨-, hfailed⟩ | ⟨np, -, hok⟩ := hrest
  · exact hfailed.pageInv hinv1 hshm1 hp1 hwhole1
  · refine hok.pageInv hinv1 hshm1 hp1 ?_ hwhole1
    rw [hs1.proc]
    exact (noStale_congr (by rw [hs1.proc])).mpr hstale

theorem entered_pageSame {c : CIdx} {cwd : Option Slot} {cid : ℕ}
    {containers : CIdx → Container} {fs : Fs}
    {mem : Mem} : PageSame s (s.entered p c cwd cid containers fs mem) := by
  have hset : PageSame s (s.setProc p ((s.proc p).entered c cwd cid)) := .setProc rfl rfl rfl rfl
  exact hset.trans (.of_proc rfl rfl rfl)

theorem cmCreateAndEnter_pageInv {init fs : Bytes} {n r : Int}
    (h : cmCreateAndEnter s p init fs n = .ok (r, s')) (hinv : PageInv s) (hshm : ShmInv s)
    (hp : s.live p) (hstale : s.noStale p (s.proc p).renamed.name)
    (hwhole : s.forksWhole p (s.proc p).renamed.name) : PageInv s' := by
  obtain rfl | ⟨c, cwd, cid, containers, fs, mem, r', s1, hfork, rfl⟩ := cmCreateAndEnter_cases h
  · exact hinv.of_same (.setProc rfl rfl rfl rfl)
  have hentered : PageSame s (s.entered p c cwd cid containers fs mem) := entered_pageSame
  have hinv1 : PageInv s1 := by
    refine fork_pageInv hfork (hinv.of_same hentered) (hshm.of_same entered_shmSame)
      (entered_live hp) ?_ ?_
    · rw [entered_self]
      exact (noStale_congr (hentered.shared_mem p hp)).mpr hstale
    · unfold Kernel.forksWhole
      rw [entered_self]
      exact hwhole
  exact hinv1.of_same (.setProc rfl rfl rfl rfl)

/-! ## Boot -/

theorem inituvm_fits {kept S : Set ℕ} {T : ℕ → ℕ → Prop} {m' : Kmem} {code : Bytes}
    (h : Fits kept S T d m) (hrun : inituvm d m code = .ok (d', m')) : Fits kept S T d' m' := by
  unfold inituvm at hrun
  split_ifs at hrun
  split at hrun
  · cases hrun
  · rename_i page m1 hk
    obtain ⟨hpage, h1⟩ := h.kalloc hk
    obtain ⟨⟨ok, d2, m2⟩, hmap, hrun⟩ := bind_eq_ok.mp hrun
    rw [← Nat.zero_mul PGSIZE, mappages_page] at hmap
    have h2 := (h1 _).mapPage_own hpage h.shared hmap
    cases hrun
    split_ifs at h2
    · exact h2.congr rfl
    · exact (h2.forget h.shared).congr rfl

theorem Machinery.pageInv (b : Machinery) : PageInv b.kernel := by
  have hdead : ∀ q, ¬ b.kernel.live q := fun q hq => hq rfl
  have href : ∀ {k g}, b.kernel.shmRef k ≠ some g := fun hk => hdead _ (live_of_shmRef hk)
  have hown : ∀ {a x}, x ∉ b.kernel.own a := by
    intro a x hx
    cases a with
    | slot g => exact absurd hx.1 (Nat.lt_irrefl 0)
    | stack q => exact hdead q hx.1
    | part q k => exact hdead q hx.1
  refine ⟨⟨b.free_nodup, fun hx => absurd hx hown, fun hx => absurd hx hown,
    fun hx => absurd hx hown, nofun⟩,
    fun hq => absurd hq (hdead _), fun hi => absurd hi href, fun hi => absurd hi href⟩

theorem boot_pageInv (h : Boot s) : PageInv s := by
  obtain ⟨b, code, p, page, free, mem, d0, d, m0, m, cwd, q, fs, -, hfree, hkvm, huvm, -, hs⟩ :=
    boot_cases h
  have hinv := b.pageInv
  have hproc : s.proc = update b.kernel.proc p (.first page d cwd) := by rw [hs]; rfl
  have hself : s.proc p = .first page d cwd := by rw [hproc, update_self]
  have honly : ProcOnly b.kernel s p := by
    refine ⟨fun hr => ?_, fun g => ?_, fun g => ?_⟩
    · rw [hproc, update_of_ne hr]
    · rw [hs]
    · rw [hs]
  have hnone : ∀ {i g}, s.shmRef (p, i) ≠ some g := by
    intro i g hi
    have hfree : (Proc.first page d cwd).shmRef i = none := if_pos (.inr rfl)
    rw [Kernel.shmRef, hself, hfree] at hi
    cases hi
  have hroom := hinv.room p
  have hcons : b.kernel.km.free = page :: free := hfree
  rw [hcons] at hroom
  have hframes : b.kernel.frames ⊆ insert page (b.kernel.elsewhere p) :=
    (frames_subset_elsewhere _ p).trans (Set.subset_insert _ _)
  have hfits : Fits (insert page (b.kernel.elsewhere p)) b.kernel.frames (fun _ _ => False) d0 m0 :=
    setupkvm_fits hroom.take hframes hkvm
  have hkm : s.km = m := by rw [hs]
  refine honly.pageInv hinv (honly.spawn hinv hcons (hkm ▸ inituvm_fits hfits huvm) ?_ ?_) ?_
    (fun hi => absurd hi hnone) fun hi => absurd hi hnone
  · rw [hself]
    rfl
  · rw [hself]
    rfl
  · intro d1 _ hd1 v e he hS
    rw [hself] at hd1
    cases hd1
    rw [honly.frames] at hS
    exact ((inituvm_fits hfits huvm).backed v e he hS).elim

/-! ## Runs -/

instance (s : Kernel) (p : PIdx) (lo hi : ℕ) : Decidable (s.clearOf p lo hi) :=
  inferInstanceAs (Decidable (∀ _, _ → _))

instance (s : Kernel) (p : PIdx) (n : Int) : Decidable (s.growsClear p n) :=
  inferInstanceAs (Decidable (_ ∧ _))

instance (s : Kernel) (p : PIdx) : Decidable (s.endsClear p) :=
  inferInstanceAs (Decidable (_ ∧ _))

instance (s : Kernel) (p : PIdx) (name : Bytes) : Decidable (s.forksWhole p name) :=
  inferInstanceAs (Decidable (_ ∨ _))

/-- The calls that free no page in use. -/
def Kernel.pagesClear (s : Kernel) (a : PIdx × Call) : Prop :=
  match a.2 with
  | .mGet _ => s.endsClear a.1
  | .sbrk n => s.growsClear a.1 n
  | .exec .. => ∀ i, ((s.proc a.1).shared_mem i).in_use = false
  | .fork => s.forksWhole a.1 (s.proc a.1).name
  | .cmCreateAndEnter .. => s.forksWhole a.1 (s.proc a.1).renamed.name
  | _ => True

instance (s : Kernel) : (a : PIdx × Call) → Decidable (s.pagesClear a)
  | (p, .mGet _) => inferInstanceAs (Decidable (s.endsClear p))
  | (p, .sbrk n) => inferInstanceAs (Decidable (s.growsClear p n))
  | (_, .exec ..) => inferInstanceAs (Decidable (∀ _, _))
  | (p, .fork) => inferInstanceAs (Decidable (s.forksWhole p _))
  | (p, .cmCreateAndEnter ..) => inferInstanceAs (Decidable (s.forksWhole p _))
  | (_, .wait) | (_, .exit) | (_, .kill _) | (_, .mRem _) | (_, .cmMaxproc _) | (_, .cmSetroot ..)
  | (_, .mutexCreate _) | (_, .mutexDelete _) | (_, .prioSet ..) | (_, .store ..) | (_, .other _) =>
    .isTrue trivial

/-- The calls that keep the owners apart. -/
def Kernel.pagesOk (s : Kernel) (a : PIdx × Call) : Prop := s.shmOk a ∧ s.pagesClear a

instance (s : Kernel) (a : PIdx × Call) : Decidable (s.pagesOk a) :=
  inferInstanceAs (Decidable (_ ∧ _))

theorem Call.run_pageInv {c : Call} (h : c.run s p = .ok s') (hp : s.canRun p)
    (hok : s.pagesOk (p, c)) (hshm : ShmInv s) (hinv : PageInv s) : PageInv s' := by
  obtain ⟨hshmOk, hclear⟩ := hok
  by_cases hmem : c.sparesMemory = true
  · exact hinv.of_same (.of_memSame (c.run_memSame h hmem))
  cases c.ran h with
  | kill | cmMaxproc | cmSetroot | mutexCreate | mutexDelete | prioSet | store =>
    exact absurd rfl hmem
  | fork h => exact fork_pageInv h hinv hshm hp.live hshmOk hclear
  | exit h => exact exit_pageInv h hinv hshm hp.live hshmOk
  | wait h => exact wait_pageInv h hinv hshm hp
  | exec h => exact exec_pageInv h hinv hp.live hclear
  | sbrk h => exact growproc_pageInv h hinv hp.live hclear
  | mGet h => exact shmGet_pageInv h hinv hshm hp.live hshmOk hclear
  | mRem h => exact shmRem_pageInv h hinv hshm hp.live hshmOk
  | cmCreateAndEnter h => exact cmCreateAndEnter_pageInv h hinv hshm hp.live hshmOk hclear
  | other o => exact hshmOk.elim

theorem reach_pageInv (h : kernelMachine.Reach Kernel.pagesOk s) : ShmInv s ∧ PageInv s :=
  h.invariant (I := fun s => ShmInv s ∧ PageInv s)
    (fun _ hboot => ⟨boot_shmInv hboot, boot_pageInv hboot⟩) fun _ _ _ hinv hok hstep =>
    have ⟨hp, hrun⟩ := kernelMachine_step hstep
    ⟨Call.run_shmInv hrun hp hok.1 hinv.1, Call.run_pageInv hrun hp hok hinv.1 hinv.2⟩

end Dockv6
