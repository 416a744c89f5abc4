import Dockv6.Vm.Phys

/-!
# What shm_get leaves behind

A `shm_get` that fails undoes nothing: the slot for a new page is marked before the page is
allocated (`shmGet_untouched_iff`). One that succeeds maps the page behind the rounded-up image, and
returns and records the size of the image as it was (`shmGet_sharedAt_iff`).
-/

namespace Dockv6

open Kernel Function

variable {s s' : Kernel} {p : PIdx} {d d' : Pgdir} {name : Bytes} {g : ShmIdx} {r : Int}

/-- Where the address `va` of the process leads in physical memory. -/
def Kernel.translate (s : Kernel) (p : PIdx) (va : ℕ) : Option ℕ :=
  ((s.proc p).pgdir.bind fun d => d.pte (va / PGSIZE)).map fun e => e.ppn * PGSIZE + va % PGSIZE

/-! ## Failure -/

/-- What a failed `shm_get` should leave as it was. -/
structure ShmUntouched (s s' : Kernel) (p : PIdx) : Prop where
  shm : s'.shm = s.shm
  shared_mem : (s'.proc p).shared_mem = (s.proc p).shared_mem
  sz : (s'.proc p).sz = (s.proc p).sz
  mapped : ∀ v, ((s'.proc p).pgdir.bind fun d => d.pte v) = (s.proc p).pgdir.bind fun d => d.pte v
  free : s'.km.free = s.km.free

theorem ShmUntouched.refl (s : Kernel) (p : PIdx) : ShmUntouched s s p :=
  ⟨rfl, rfl, rfl, fun _ => rfl, rfl⟩

/-- Does `shm_get` get to the point where it claims a slot for a new page? -/
def Kernel.claims (s : Kernel) (p : PIdx) (name : Bytes) : Prop :=
  ∃ d, (s.proc p).pgdir = some d ∧ s.asks p d name ∧
    s.findShm name (s.proc p).container_id = none ∧ s.freeShm ≠ none

/-- **A failed `shm_get` changes nothing** unless it claims a slot and there is no free page. -/
theorem shmGet_untouched_iff (h : shmGet s p name = .ok (-1, s')) :
    ShmUntouched s s' p ↔ ¬ (s.claims p name ∧ s.km.free = []) := by
  obtain ⟨d, hd, hout⟩ := shmGet_outcome h
  have hclaims : s.claims p name → s.asks p d name ∧
      s.findShm name (s.proc p).container_id = none ∧ s.freeShm ≠ none := by
    rintro ⟨d1, hd1, hrest⟩
    obtain rfl : d1 = d := Option.some.inj (hd1.symm.trans hd)
    exact hrest
  cases hout with
  | refused hwhy =>
    refine iff_of_true (.refl s p) fun hbad => ?_
    obtain ⟨hask, -, hsome⟩ := hclaims hbad.1
    obtain hnot | ⟨-, hnone⟩ := hwhy
    · exact hnot hask
    · exact hsome hnone
  | noTable g d' m _ hg hmap =>
    -- The page table could not be allocated, and nothing else was done.
    rw [mappages_page] at hmap
    obtain ⟨-, -, ⟨-, rfl, rfl, -⟩ | ⟨hok, -⟩⟩ := mapPage_cases hmap
    · refine iff_of_true ⟨rfl, ?_, ?_, fun v => ?_, rfl⟩ fun hbad => ?_
      · simp [setVm]
      · simp [setVm]
      · simp [setVm, hd]
      · rw [hg] at hclaims
        cases (hclaims hbad.1).2.1
    · cases hok
  | noPage g hask hg hfree hpage =>
    refine iff_of_false (fun hsame => ?_) fun hgood => hgood ⟨⟨d, hd, hask, hg, ?_⟩, hpage⟩
    · have hslot := congrFun hsame.shm g
      rw [setShm_shm, if_pos rfl] at hslot
      have huse : true = (s.shm g).in_use := congrArg SharedMem.in_use hslot
      rw [freeShm_eq_some hfree] at huse
      cases huse
    · rw [hfree]
      exact Option.some_ne_none g
  | joined g d' m _ _ _ _ _ hend =>
    have hsz := shmAttach_eq_ok hend
    omega
  | made g page free d' m _ _ _ _ _ _ _ _ hend =>
    have hsz := shmAttach_eq_ok hend
    omega

set_option maxRecDepth 100000 in
/-- Asking twice for a page changes nothing the second time. -/
theorem shmGet_untouched_twice :
    ∃ s s', kernelMachine.Reachable s ∧ shmGet s 0 [97] = .ok (-1, s') ∧ ShmUntouched s s' 0 := by
  have hrun : (bootRun kernelMachine [(0, .mGet [97])]).any
      (fun s => (shmGet s 0 [97]).toOption.any fun r =>
        decide (r.1 = -1 ∧ (s.findShmem 0 [97]).isSome = true)) = true := by
    decide +kernel
  obtain ⟨s, ⟨r, s'⟩, hs, hget, hP⟩ := exists_of_bootRun (fun _ => id) hrun
  obtain ⟨rfl, hheld⟩ := of_decide_eq_true hP
  refine ⟨s, s', hs, hget, (shmGet_untouched_iff hget).mpr fun hbad => ?_⟩
  obtain ⟨⟨d, -, hask, -⟩, -⟩ := hbad
  rw [hask.2] at hheld
  cases hheld

set_option maxRecDepth 100000 in
/-- With all memory in use a request for a new page fails, and the slot it tried is in use from then
on. -/
theorem shmGet_failure_claims_slot :
    ∃ s s', kernelMachine.Reachable s ∧ shmGet s 0 [97] = .ok (-1, s') ∧ ¬ ShmUntouched s s' 0 := by
  have hrun : (bootRun kernelMachine [(0, .sbrk 1359872)]).any
      (fun s => (shmGet s 0 [97]).toOption.any fun r =>
        decide (r.1 = -1 ∧ (r.2.shm 0).in_use = true ∧ (s.shm 0).in_use = false)) = true := by
    decide +kernel
  obtain ⟨s, ⟨r, s'⟩, hs, hget, hP⟩ := exists_of_bootRun (fun _ => id) hrun
  obtain ⟨rfl, huse, hunused⟩ := of_decide_eq_true hP
  refine ⟨s, s', hs, hget, fun hsame => ?_⟩
  rw [hsame.shm, hunused] at huse
  cases huse

/-! ## Success -/

/-- The slot that `shm_get` works on: the one with the name, or a free one. -/
def Kernel.shmSlot (s : Kernel) (p : PIdx) (name : Bytes) : Option ShmIdx :=
  s.findShm name (s.proc p).container_id <|> s.freeShm

/-- After `shm_get` with the result `va` the page of the slot `g` is at `va`, what was mapped before
is still there, and `shm_rem` takes this page out and nothing else. -/
structure SharedAt (s s' : Kernel) (p : PIdx) (name : Bytes) (va : ℕ) (g : ShmIdx) : Prop where
  below : ∀ k < PGSIZE, va + k < (s'.proc p).sz
  page : ∀ k < PGSIZE, s'.translate p (va + k) = some ((s'.shm g).pa + k)
  rest : ∀ a < (s.proc p).sz, s'.translate p a = s.translate p a
  removed : ∃ s'', shmRem s' p name = .ok (0, s'') ∧
    (∀ a, s''.translate p a = if va ≤ a ∧ a < va + PGSIZE then none else s'.translate p a) ∧
    ∀ f ∈ s''.km.free, f ∈ s'.km.free ∨ f * PGSIZE = (s'.shm g).pa

theorem pages_of_aligned {sz : ℕ} (h : sz % PGSIZE = 0) : pages sz = sz / PGSIZE := by
  simp only [pages, PGSIZE] at *
  omega

theorem pages_of_not_aligned {sz : ℕ} (h : sz % PGSIZE ≠ 0) : pages sz = sz / PGSIZE + 1 := by
  simp only [pages, PGSIZE] at *
  omega

theorem div_lt_pages {a sz : ℕ} (h : a < sz) : a / PGSIZE < pages sz := by
  simp only [pages, PGSIZE] at *
  omega

/-- An entry of the page table replaced. -/
theorem translate_update {v : ℕ} {e : Option Pte} (hd : (s.proc p).pgdir = some d)
    (hd' : (s'.proc p).pgdir = some d') (hpte : d'.pte = update d.pte v e) (a : ℕ) :
    s'.translate p a =
      if a / PGSIZE = v then e.map fun e => e.ppn * PGSIZE + a % PGSIZE else s.translate p a := by
  simp only [Kernel.translate, hd, hd', Option.bind_some, hpte, update_apply]
  split_ifs <;> rfl

/-- What a `shm_get` that succeeds has done before its last part: `s0` has the slot `g` with its
page, which is mapped in `d'` behind the image. -/
structure ShmMapped (s : Kernel) (p : PIdx) (d : Pgdir) (name : Bytes) (r : Int) (s' s0 : Kernel)
    (g : ShmIdx) (d' : Pgdir) (m : Kmem) (page : ℕ) : Prop where
  proc : s0.proc = s.proc
  slot : s.shmSlot p name = some g
  pa : (s0.shm g).pa = page * PGSIZE
  isPage : m.isPage page
  fits : pages (s.proc p).sz < NUSERPAGES
  tab : ∃ t, d'.tab (pages (s.proc p).sz / NPTENTRIES) = some t
  pte : d'.pte = update d.pte (pages (s.proc p).sz) (some (.make (s0.shm g).pa (PTE_W ||| PTE_U)))
  notHeld : s.findShmem p name = none
  found : ∀ t : Kernel, t.shm = update s0.shm g ((s0.shm g).joined (s.proc p).container_id) →
    t.findShm name (s.proc p).container_id = some g
  attach : shmAttach (s0.setVm p d' m) p d' name (s.freeShmem p) g = .ok (r, s')

theorem mappages_true {v pa perm : ℕ} {m m' : Kmem}
    (h : mappages d m (v * PGSIZE) PGSIZE pa perm = .ok (true, d', m')) :
    v < NUSERPAGES ∧ (∃ t, d'.tab (v / NPTENTRIES) = some t) ∧
      d'.pte = update d.pte v (some (.make pa perm)) := by
  rw [mappages_page] at h
  obtain ⟨hv, -, ⟨hok, -⟩ | ⟨-, d1, htabled, rfl⟩⟩ := mapPage_cases h
  · cases hok
  obtain ⟨t, ht⟩ := htabled.tab
  refine ⟨hv, ?_, ?_⟩
  · rw [Pgdir.setPte, ht]
    exact ⟨_, update_self ..⟩
  · rw [Pgdir.pte_setPte ht, htabled.pte]

/-- A name that was copied over another one is found again. -/
theorem strncmp_strncpy (x name : Bytes) : strncmp (strncpy x name (strlen name)) name
    (strlen name) = 0 := by
  rw [strncmp_eq_zero_iff, cstr_strncpy_strlen, strlen, List.take_left, List.take_length]

theorem find?_of_unique {α : Type*} {l : List α} {P : α → Bool} {a : α} (hl : a ∈ l)
    (ha : P a = true) (hall : ∀ b, P b = true → b = a) : l.find? P = some a := by
  cases hf : l.find? P with
  | none => exact absurd ha (List.find?_eq_none.mp hf a hl)
  | some b => rw [hall b (List.find?_some hf)]

theorem Kernel.asks.strlen_ne (h : s.asks p d name) : strlen name ≠ 0 := by
  intro hlen
  obtain ⟨⟨cmp, hcmp, hne⟩, -⟩ := h
  rw [hlen, strncmpUser] at hcmp
  exact hne (Except.ok.inj hcmp).symm

theorem ShmOutcome.mapped (h : ShmOutcome s p d name r s') (hr : r ≠ -1) (hphys : Phys s) :
    ∃ s0 g d' m page, ShmMapped s p d name r s' s0 g d' m page := by
  cases h with
  | refused => exact absurd rfl hr
  | noTable => exact absurd rfl hr
  | noPage => exact absurd rfl hr
  | joined g d' m _ _ hask hg hmap hend =>
    obtain ⟨hcmp, hcid⟩ : strncmp (s.shm g).name name (strlen name) = 0 ∧
        (s.shm g).container_id = (s.proc p).container_id := by
      simpa [shmNamed] using shmNamed_of_findShm hg
    have hname : cstr (s.shm g).name ≠ [] := fun hnil =>
      strncmp_of_cstr_eq_nil hnil hask.strlen_ne hcmp
    obtain ⟨page, hpa, hpage⟩ := hphys.shm g hname
    obtain ⟨hfits, htab, hpte⟩ := mappages_true hmap
    refine ⟨s, g, d', m, page, rfl, ?_, hpa, ?_, hfits, htab, hpte, hask.2, fun t ht => ?_, hend⟩
    · rw [Kernel.shmSlot, hg]
      rfl
    · rwa [Kmem.isPage, (mappages_keeps hmap).first]
    · rw [← hg, Kernel.findShm, Kernel.findShm]
      congr 1
      funext g'
      simp only [shmNamed, ht, update_apply]
      split_ifs with hg'
      · rw [hg', SharedMem.joined, hcid]
      · rfl
  | made g page free d' m _ _ hask hg hfree hpage hlen hmap hend =>
    obtain ⟨hfits, htab, hpte⟩ := mappages_true hmap
    let s0 : Kernel := s.setShm g ((s.shm g).made name page)
    have hslot : s0.shm g = (s.shm g).made name page := by
      show (s.setShm g _).shm g = _
      rw [setShm_shm, if_pos rfl]
    have hpa : (s0.shm g).pa = page * PGSIZE := by
      rw [hslot]
      rfl
    refine ⟨s0, g, d', m, page, rfl, ?_, hpa, ?_, hfits, htab, ?_, hask.2, fun t ht => ?_, hend⟩
    · rw [Kernel.shmSlot, hg, hfree]
      rfl
    · have hfirst : m.first = s.km.first := (mappages_keeps hmap).first
      rw [Kmem.isPage, hfirst]
      exact hphys.free page (hpage ▸ List.mem_cons_self)
    · rw [hpa]
      exact hpte
    · -- No slot had the name before, so the new one is the only one.
      refine find?_of_unique (List.mem_finRange g) ?_ fun g' hg' => ?_
      · simp only [shmNamed, ht, update_self, hslot, SharedMem.joined, SharedMem.made,
          strncmp_strncpy, beq_self_eq_true, Bool.and_self]
      · by_contra hne
        have hold : s.shmNamed name (s.proc p).container_id g' = true := by
          have hsame : t.shm g' = s.shm g' := by
            rw [ht, update_of_ne hne]
            show (s.setShm g _).shm g' = _
            rw [setShm_shm, if_neg hne]
          rw [shmNamed, hsame] at hg'
          exact hg'
        exact List.find?_eq_none.mp hg g' (List.mem_finRange g') hold

theorem shmRem_eq_ok {i : ShmIdx} {s'' : Kernel}
    (hg : s.findShm name (s.proc p).container_id = some g) (hi : s.findShmem p name = some i)
    (hd : (s.proc p).pgdir = some d) (hva : ((s.proc p).shared_mem i).va / PGSIZE < NUSERPAGES)
    (htab : ∃ t, d.tab (((s.proc p).shared_mem i).va / PGSIZE / NPTENTRIES) = some t)
    (hrem : ShmRemoved s p d g i s'') : shmRem s p name = .ok (0, s'') := by
  obtain ⟨t, ht⟩ := htab
  have hundef : ¬ (NUSERPAGES ≤ ((s.proc p).shared_mem i).va / PGSIZE ∨
      (d.tab (((s.proc p).shared_mem i).va / PGSIZE / NPTENTRIES)).isNone = true) := by
    rw [ht]
    rintro (hle | hnone)
    · exact absurd hva (Nat.not_lt.mpr hle)
    · cases hnone
  simp only [shmRem, hg, hi, hd]
  unfold shmRemove
  dsimp only
  rw [if_neg hundef]
  cases hrem with
  | last e m hcount he hm =>
    rw [if_pos hcount, he]
    have hkm : (s.setShmem p i { (s.proc p).shared_mem i with in_use := false }).km = s.km := rfl
    simp only [hkm, hm, bind, Except.bind]
    simp [shmDetach, setShmem, Kernel.setProc, setShm, Proc.detached, SharedMem.dealloc, pure,
      Except.pure]
  | dropped hcount =>
    rw [if_neg hcount]
    simp [shmDetach, setShmem, Kernel.setProc, setShm, Proc.detached, bind, Except.bind, pure,
      Except.pure]

namespace ShmMapped

variable {s0 : Kernel} {m : Kmem} {page : ℕ}

theorem attached_frame {i : Option ShmIdx}
    (h : shmAttach (s0.setVm p d' m) p d' name i g = .ok (r, s')) :
    (s'.proc p).pgdir = some d' ∧ (s'.proc p).sz = ((s0.proc p).sz + PGSIZE) % 2 ^ 32 ∧
      (s'.proc p).container_id = (s0.proc p).container_id ∧
      s'.shm = update s0.shm g ((s0.shm g).joined (s0.proc p).container_id) ∧
      (i = none → (s'.proc p).shared_mem = (s0.proc p).shared_mem) := by
  cases i with
  | some i =>
    rw [shmAttach_cases h]
    simp [setShm, Kernel.setProc, Proc.attached]
  | none =>
    obtain ⟨s1, hfill, h1⟩ := bind_eq_ok.mp h
    cases h1
    obtain ⟨mem1, -, h2⟩ := bind_eq_ok.mp hfill
    obtain ⟨mem2, -, h3⟩ := bind_eq_ok.mp h2
    obtain ⟨mem3, -, h4⟩ := bind_eq_ok.mp h3
    obtain ⟨mem4, -, h5⟩ := bind_eq_ok.mp h4
    cases h5
    simp [setShm, Kernel.setProc, setVm, SharedMem.joined]

variable (h : ShmMapped s p d name r s' s0 g d' m page)
include h

theorem translate (hd : (s.proc p).pgdir = some d) (a : ℕ) : s'.translate p a =
    if a / PGSIZE = pages (s.proc p).sz then some ((s'.shm g).pa + a % PGSIZE)
    else s.translate p a := by
  obtain ⟨hpgdir, -, -, hshm, -⟩ := attached_frame h.attach
  rw [translate_update hd hpgdir h.pte, hshm, update_self, SharedMem.joined, h.pa]
  simp [Pte.make]

theorem aligned (hd : (s.proc p).pgdir = some d)
    (hk : s'.translate p (s.proc p).sz = some (s'.shm g).pa) : (s.proc p).sz % PGSIZE = 0 := by
  by_contra hne
  obtain ⟨-, -, -, hshm, -⟩ := attached_frame h.attach
  rw [h.translate hd, if_neg (by rw [pages_of_not_aligned hne]; omega), hshm, update_self,
    SharedMem.joined, h.pa] at hk
  -- The byte before the rounding is not at the start of a page.
  obtain ⟨e, -, he⟩ := Option.map_eq_some_iff.mp hk
  simp only [PGSIZE] at he hne
  omega

theorem removed {i : ShmIdx} (hi : s.freeShmem p = some i) (hsz : (s.proc p).sz % PGSIZE = 0) :
    ∃ s'', shmRem s' p name = .ok (0, s'') ∧
      (∀ a, s''.translate p a =
        if (s.proc p).sz ≤ a ∧ a < (s.proc p).sz + PGSIZE then none else s'.translate p a) ∧
      ∀ f ∈ s''.km.free, f ∈ s'.km.free ∨ f * PGSIZE = (s'.shm g).pa := by
  have hend := h.attach
  obtain ⟨hpgdir, -, hcid, hshm, -⟩ := attached_frame hend
  rw [hi] at hend
  have hs' := shmAttach_cases hend
  have hproc : s'.proc p = (s.proc p).attached d' name i g := by
    rw [hs']
    show (s0.setProc p ((s0.proc p).attached d' name i g)).proc p = _
    rw [setProc_self, h.proc]
  have hentry : ((s'.proc p).shared_mem i).va = (s.proc p).sz := by
    rw [hproc, Proc.attached_shared_mem, update_self]
  -- The entry that was filled in is the only one with the name.
  have hfound : s'.findShmem p name = some i := by
    refine find?_of_unique (List.mem_finRange i) ?_ fun j hj => ?_
    · rw [shmemNamed, hproc, Proc.attached_shared_mem, update_self]
      simp only [strncmp_strncpy, beq_self_eq_true]
    · by_contra hne
      rw [shmemNamed, hproc, Proc.attached_shared_mem, update_of_ne hne] at hj
      exact List.find?_eq_none.mp h.notHeld j (List.mem_finRange j) hj
  have hslot : s'.findShm name (s'.proc p).container_id = some g := by
    rw [hcid, h.proc]
    rw [h.proc] at hshm
    exact h.found s' hshm
  have hv : (s.proc p).sz / PGSIZE = pages (s.proc p).sz := (pages_of_aligned hsz).symm
  have hpte : d'.pte (((s'.proc p).shared_mem i).va / PGSIZE) =
      some (.make (s0.shm g).pa (PTE_W ||| PTE_U)) := by
    rw [hentry, hv, h.pte, update_self]
  have htranslate : ∀ {s'' : Kernel}, (s''.proc p).pgdir =
      some (d'.setPte (((s'.proc p).shared_mem i).va / PGSIZE) none) → ∀ a, s''.translate p a =
        if (s.proc p).sz ≤ a ∧ a < (s.proc p).sz + PGSIZE then none else s'.translate p a := by
    intro s'' hd'' a
    rw [translate_update hpgdir hd'' Pgdir.pte_setPte_none, hentry]
    have hiff : a / PGSIZE = (s.proc p).sz / PGSIZE ↔
        (s.proc p).sz ≤ a ∧ a < (s.proc p).sz + PGSIZE := by
      simp only [PGSIZE] at hsz ⊢
      omega
    simp only [hiff, Option.map_none]
  have hrem : ∀ {s''}, ShmRemoved s' p d' g i s'' → shmRem s' p name = .ok (0, s'') := by
    refine fun hr => shmRem_eq_ok hslot hfound hpgdir ?_ ?_ hr
    · rw [hentry, hv]
      exact h.fits
    · rw [hentry, hv]
      exact h.tab
  by_cases hcount : (s'.shm g).refcount = 1
  · have hkm : s'.km = m := by rw [hs']
    have hppn : (Pte.make (s0.shm g).pa (PTE_W ||| PTE_U)).ppn = page := by simp [Pte.make, h.pa]
    have hfree : kfree s'.km (Pte.make (s0.shm g).pa (PTE_W ||| PTE_U)).ppn =
        .ok { m with free := page :: m.free, mem := update m.mem page (freedPage m.free) } := by
      rw [hkm, hppn, kfree, if_neg]
      rintro (hlo | hhi)
      · exact absurd h.isPage.1 (Nat.not_le.mpr hlo)
      · exact absurd h.isPage.2 (Nat.not_lt.mpr hhi)
    refine ⟨_, hrem (.last _ _ hcount hpte hfree), htranslate ?_, fun f hf => ?_⟩
    · show ((s'.setProc p ((s'.proc p).detached d' i)).proc p).pgdir = _
      rw [setProc_self, Proc.detached_pgdir]
    · obtain rfl | hf := List.mem_cons.mp hf
      · right
        rw [hshm, update_self, SharedMem.joined, h.pa]
      · left
        rwa [hkm]
  · refine ⟨_, hrem (.dropped hcount), htranslate ?_, fun f hf => .inl hf⟩
    show ((s'.setProc p ((s'.proc p).detached d' i)).proc p).pgdir = _
    rw [setProc_self, Proc.detached_pgdir]

end ShmMapped

/-- **The address that `shm_get` returns is the shared page**, and `shm_rem` takes it out again,
exactly when the name fits its array, the size of the process is a multiple of the page size and the
process has an entry that is not in use. (A name of 17 to 20 bytes runs into the next word of the
entry, and `shm_rem` does not find it.) -/
theorem shmGet_sharedAt_iff (hreach : sysMachine.Reachable s)
    (hsz : (s.proc p).sz < KERNBASE - 2 * PGSIZE) (h : shmGet s p name = .ok (r, s'))
    (hr : r ≠ -1) :
    (∃ (va : ℕ) (g : ShmIdx), r = va ∧ s.shmSlot p name = some g ∧ SharedAt s s' p name va g) ↔
      strlen name ≤ 16 ∧ (s.proc p).sz % PGSIZE = 0 ∧
      ∃ i, ((s.proc p).shared_mem i).in_use = false := by
  obtain ⟨d, hd, hout⟩ := shmGet_outcome h
  obtain ⟨s0, g, d', m, page, hmapped⟩ := hout.mapped hr (reach_phys hreach)
  have hva : r = (s.proc p).sz := by
    have hsz0 := shmAttach_eq_ok hmapped.attach
    simpa [setVm, hmapped.proc] using hsz0
  obtain ⟨-, hsz', hcid, hshm, hnone⟩ := ShmMapped.attached_frame hmapped.attach
  rw [hmapped.proc] at hsz' hcid hshm hnone
  constructor
  · rintro ⟨va, g', hr', hg', hshared⟩
    obtain rfl : g' = g := Option.some.inj (hg'.symm.trans hmapped.slot)
    obtain rfl : va = (s.proc p).sz := by omega
    have hentry : ∃ i, ((s.proc p).shared_mem i).in_use = false := by
      by_contra hall
      have hno : s.freeShmem p = none := by
        refine List.find?_eq_none.mpr fun i _ hi => hall ⟨i, by simpa using hi⟩
      -- Without an entry `shm_rem` does not find the page.
      obtain ⟨s'', hrem, -⟩ := hshared.removed
      have hgone : s'.findShmem p name = none := by
        have hsame : s'.shmemNamed p name = s.shmemNamed p name := by
          funext j
          rw [shmemNamed, shmemNamed, hnone hno]
        rw [findShmem, hsame]
        exact hmapped.notHeld
      simp only [shmRem, hcid, hmapped.found s' hshm, hgone] at hrem
      cases hrem
    obtain ⟨i, hi⟩ := freeShmem_of_exists hentry
    refine ⟨?_, hmapped.aligned hd ?_, hentry⟩
    · have hattach := hmapped.attach
      rw [hi] at hattach
      exact shmAttach_length hattach
    · simpa using hshared.page 0 (by decide)
  · rintro ⟨-, halign, hentry⟩
    obtain ⟨i, hi⟩ := freeShmem_of_exists hentry
    refine ⟨(s.proc p).sz, g, hva, hmapped.slot, ?_, ?_, ?_, hmapped.removed hi halign⟩
    · intro k hk
      rw [hsz']
      simp only [PGSIZE, KERNBASE] at *
      omega
    · intro k hk
      have hpage : ((s.proc p).sz + k) / PGSIZE = pages (s.proc p).sz ∧
          ((s.proc p).sz + k) % PGSIZE = k := by
        rw [pages_of_aligned halign]
        simp only [PGSIZE] at *
        omega
      rw [hmapped.translate hd, if_pos hpage.1, hpage.2]
    · intro a ha
      rw [hmapped.translate hd, if_neg (div_lt_pages ha).ne]

set_option maxRecDepth 100000 in
/-- The first process, of one page, gets a shared page behind it. -/
theorem shmGet_sharedAt_first : ∃ s s', sysMachine.Reachable s ∧ shmGet s 0 [97] = .ok (4096, s') ∧
    ∃ g, SharedAt s s' 0 [97] 4096 g := by
  have hrun : (bootRun sysMachine []).any (fun s => (shmGet s 0 [97]).toOption.any fun r =>
      decide (r.1 = 4096 ∧ (s.proc 0).sz = 4096 ∧ ((s.proc 0).shared_mem 0).in_use = false)) =
          true := by
    decide +kernel
  obtain ⟨s, ⟨r, s'⟩, hs, hget, hP⟩ := exists_of_bootRun (fun _ => id) hrun
  obtain ⟨rfl, hsz, huse⟩ := of_decide_eq_true hP
  have hsmall : (s.proc 0).sz < KERNBASE - 2 * PGSIZE := by
    rw [hsz]
    decide
  have haligned : (s.proc 0).sz % PGSIZE = 0 := by
    rw [hsz]
    decide
  have hshared := (shmGet_sharedAt_iff hs hsmall hget (by decide)).mpr
    ⟨by decide, haligned, 0, huse⟩
  obtain ⟨va, g, hva, -, hat⟩ := hshared
  obtain rfl : va = 4096 := by omega
  exact ⟨s, s', hs, hget, g, hat⟩

set_option maxRecDepth 100000 in
/-- After `sbrk(10)` the size is 4106: the shared page is mapped at 8192, and 4106 is returned. -/
theorem shmGet_returns_unrounded : ∃ s s', sysMachine.Reachable s ∧
    (s.proc 0).sz < KERNBASE - 2 * PGSIZE ∧ shmGet s 0 [97] = .ok (4106, s') ∧
    ¬ ∃ g, SharedAt s s' 0 [97] 4106 g := by
  have hrun : (bootRun sysMachine [(0, .call (.sbrk 10))]).any
      (fun s => (shmGet s 0 [97]).toOption.any fun r =>
      decide (r.1 = 4106 ∧ (s.proc 0).sz = 4106 ∧
        ∀ g, r.2.translate 0 4106 ≠ some (r.2.shm g).pa)) = true := by
    decide +kernel
  obtain ⟨s, ⟨r, s'⟩, hs, hget, hP⟩ := exists_of_bootRun (fun _ => id) hrun
  obtain ⟨rfl, hsz, hpage⟩ := of_decide_eq_true hP
  refine ⟨s, s', hs, ?_, hget, fun ⟨g, hat⟩ => hpage g ?_⟩
  · rw [hsz]
    decide
  · simpa using hat.page 0 (by decide)

end Dockv6
