import Dockv6.Kernel.Boot
import Dockv6.Vm.Exact

/-!
# Growing and shrinking a process

`growproc` takes the result `0` of `deallocuvm` for a failure, also when the process has shrunk to
nothing. The new size is unsigned: shrinking by more than the size makes it larger than the old one,
`deallocuvm` returns the old size, and `growproc` reports success.
-/

namespace Dockv6

open Kernel

variable {s s' : Kernel} {p : PIdx} {d d' : Pgdir} {m : Kmem} {n r : Int} {sz k : ℕ}

/-- The free pages are different pages, and none of them is in use by the directory; the pages that
are mapped are ones that `kfree` takes. -/
structure Pgdir.Sound (d : Pgdir) (m : Kmem) : Prop where
  nodup : m.free.Nodup
  range : ∀ f ∈ m.free, m.isPage f
  first : 0 < m.first
  mapped : ∀ {v e}, d.pte v = some e → m.isPage e.ppn ∧ e.ppn ∉ m.free
  tables : ∀ {i t}, d.tab i = some t → t.page ∉ m.free

/-- A page from `k` to `hi` that is mapped below `k` as well holds what the last `kfree` of it
writes. -/
def Pgdir.Spares (d : Pgdir) (m : Kmem) (k hi : ℕ) : Prop :=
  ∀ {v e l l'}, v < k → d.pte v = some e → d.frames k hi = l ++ e.ppn :: l' → e.ppn ∉ l' →
    m.mem e.ppn = freedPage (l.reverse ++ m.free)

/-- What `growproc` should do: nothing and fail, or make exactly the pages below the new size
present, with the old pages as they were and the new ones cleared. -/
def GrowExact (s : Kernel) (p : PIdx) (d : Pgdir) (n r : Int) (s' : Kernel) : Prop :=
  ∃ d', (s'.proc p).pgdir = some d' ∧
    (r = -1 ∧ (s'.proc p).sz = (s.proc p).sz ∧ d'.pte = d.pte ∧
        (∀ v e, d.pte v = some e → s'.km.mem e.ppn = s.km.mem e.ppn) ∨
      r = 0 ∧ ((s'.proc p).sz : Int) = (s.proc p).sz + n ∧ d'.Image (s'.proc p).sz ∧
        (∀ v e, v < pages (s'.proc p).sz → d.pte v = some e →
          d'.pte v = some e ∧ s'.km.mem e.ppn = s.km.mem e.ppn) ∧
        ∀ v e, pages (s.proc p).sz ≤ v → d'.pte v = some e → s'.km.mem e.ppn = fun _ => 0)

/-- `growproc` by the result of its call on the page table. -/
theorem growproc_eq_ok {m : Kmem} (hd : (s.proc p).pgdir = some d)
    (h : resize d s.km (s.proc p).sz n = .ok (sz, d', m)) :
    growproc s p n = .ok (if n ≠ 0 ∧ sz = 0 then (-1, s.setVm p d' m)
      else (0, (s.setVm p d' m).setProc p { (s.setVm p d' m).proc p with sz := sz })) := by
  unfold growproc
  rw [hd]
  dsimp only
  rw [h]
  dsimp only [bind, Except.bind]
  split_ifs <;> rfl

theorem setVm_proc (m : Kmem) : (s.setVm p d m).proc p = { s.proc p with pgdir := some d } :=
  setProc_self s p _

/-- The call failed, with the mappings unchanged. -/
theorem growExact_failed (hd : (s.proc p).pgdir = some d) (hn : n ≠ 0) (d' : Pgdir) (m : Kmem)
    (h : resize d s.km (s.proc p).sz n = .ok (0, d', m)) (hpte : d'.pte = d.pte)
    (hmem : ∀ v e, d.pte v = some e → m.mem e.ppn = s.km.mem e.ppn) :
    ∃ r s', growproc s p n = .ok (r, s') ∧ GrowExact s p d n r s' := by
  refine ⟨-1, s.setVm p d' m, ?_, d', ?_, .inl ⟨rfl, ?_, hpte, hmem⟩⟩
  · rw [growproc_eq_ok hd h, if_pos ⟨hn, rfl⟩]
  · rw [setVm_proc]
  · rw [setVm_proc]

/-- The call succeeded. -/
theorem growExact_done (hd : (s.proc p).pgdir = some d) (hsz : n ≠ 0 → sz ≠ 0)
    (h : resize d s.km (s.proc p).sz n = .ok (sz, d', m)) :
    ∃ s', growproc s p n = .ok (0, s') ∧ (s'.proc p).pgdir = some d' ∧ (s'.proc p).sz = sz ∧
    s'.km = m := by
  refine ⟨(s.setVm p d' m).setProc p { (s.setVm p d' m).proc p with sz := sz }, ?_, ?_, ?_, rfl⟩
  · rw [growproc_eq_ok hd h, if_neg fun hzero => hsz hzero.1 hzero.2]
  · rw [setProc_self, setVm_proc]
  · rw [setProc_self]

theorem Pgdir.Image.le_kernbase (h : d.Image sz) : sz ≤ KERNBASE := by
  have := h.le
  unfold pages NUSERPAGES PGSIZE KERNBASE at *
  omega

/-- Growing. -/
theorem growproc_up (hd : (s.proc p).pgdir = some d) (himage : d.Image (s.proc p).sz)
    (hsound : d.Sound s.km)
    (hpos : 0 < n) (hn : n < 2 ^ 31) : ∃ r s', growproc s p n = .ok (r, s') ∧
    GrowExact s p d n r s' := by
  have hbound := himage.le_kernbase
  have hnew : (touint ((s.proc p).sz + n) : Int) = (s.proc p).sz + n := by
    unfold touint KERNBASE at *
    omega
  have hresize : resize d s.km (s.proc p).sz n = allocuvm d s.km (s.proc p).sz
      (touint ((s.proc p).sz + n)) :=
    if_pos hpos
  by_cases hbig : KERNBASE ≤ touint ((s.proc p).sz + n)
  · refine growExact_failed hd hpos.ne' d s.km ?_ rfl fun _ _ _ => rfl
    rw [hresize, allocuvm, if_pos hbig]
  · have hle : pages (s.proc p).sz ≤ pages (touint ((s.proc p).sz + n)) := pages_mono (by omega)
    have hrounds :=
      allocRounds_returns (n := pages (touint ((s.proc p).sz + n)) - pages (s.proc p).sz)
      (Grown.start d s.km (pages (s.proc p).sz)) le_rfl (by omega)
      (pages_le_of_lt (Nat.lt_of_not_le hbig))
        (fun w hw _ => himage.shaped.pte_eq_none hw) hsound.nodup
      hsound.range hsound.first
    obtain ⟨⟨sz', d', m'⟩, hrun, hout⟩ := hrounds.exists_eq_ok
    have hrun' : resize d s.km (s.proc p).sz n = .ok (sz', d', m') := by
      rw [hresize, allocuvm, if_neg hbig, if_neg (by omega), hrun]
    have hold : ∀ {v e}, d.pte v = some e → v < pages (s.proc p).sz := fun {v e} he =>
      (himage.shaped v).mp (by rw [he]; rfl)
    obtain ⟨rfl, hgrown⟩ | ⟨rfl, hundone⟩ := hout
    · obtain ⟨s', hgrow, hd', hsz', hkm⟩ := growExact_done hd (fun _ => by omega) hrun'
      refine ⟨0, s', hgrow, d', hd',
        .inr ⟨rfl, ?_, ?_, fun v e _ he => ⟨?_, ?_⟩, fun v e hv he => ?_⟩⟩
      · rw [hsz', hnew]
      · rw [hsz']
        refine ⟨fun v => ?_, pages_le_of_lt (Nat.lt_of_not_le hbig)⟩
        by_cases hv : pages (s.proc p).sz ≤ v ∧ v < pages (touint ((s.proc p).sz + n))
        · obtain ⟨page, hpte, -⟩ := hgrown.new v hv.1 hv.2
          rw [hpte]
          exact iff_of_true rfl hv.2
        · rw [hgrown.old v (by omega), himage.shaped v]
          omega
      · rw [hgrown.old v (.inl (hold he)), he]
      · rw [hkm]
        exact hgrown.mem _ (hsound.mapped he).2
      · by_cases hv' : v < pages (touint ((s.proc p).sz + n))
        · obtain ⟨page, hpte, -, -, hzero⟩ := hgrown.new v hv hv'
          obtain rfl : e = .user page := Option.some.inj (he.symm.trans hpte)
          rw [Pte.user_ppn, hkm, hzero]
        · rw [hgrown.old v (by omega)] at he
          have := hold he
          omega
    · exact growExact_failed hd hpos.ne' _ _ hrun' hundone.pte fun v e he =>
        hundone.mem _ (hsound.mapped he).2

/-- The call of `deallocuvm` when the new size is above `0`. -/
theorem resize_down (hsound : d.Sound m) (hneg : n < 0) (hpos : 0 ≤ (sz : Int) + n)
    (hsz : sz ≤ KERNBASE) :
    ∃ d', resize d m sz n =
    .ok (touint (sz + n), d', m.freed (d.frames (pages (touint (sz + n))) (pages sz))) ∧
      d.Cleared (pages (touint (sz + n))) (pages sz) d' := by
  have hnew : (touint (sz + n) : Int) = sz + n := by
    unfold touint KERNBASE at *
    omega
  have hdealloc := deallocuvm_returns (d := d) (m := m)
    (fun w e _ _ he => (hsound.mapped he).1) hsound.first
    (show touint (sz + n) < sz by omega)
  obtain ⟨⟨r, d', m'⟩, hrun, rfl, hcleared, rfl⟩ := hdealloc.exists_eq_ok
  refine ⟨d', ?_, hcleared⟩
  rw [resize, if_neg (by omega), if_pos hneg, hrun]

theorem exists_last_of_mem {l : List ℕ} {f : ℕ} (h : f ∈ l) : ∃ l1 l2, l = l1 ++ f ::
    l2 ∧ f ∉ l2 := by
  obtain ⟨l1, l2, heq, hnot⟩ := List.eq_append_cons_of_mem (List.mem_reverse.mpr h)
  refine ⟨l2.reverse, l1.reverse, ?_, by simpa using hnot⟩
  rw [← l.reverse_reverse, heq]
  simp

/-- Shrinking to a size above `0`. -/
theorem growproc_down (hd : (s.proc p).pgdir = some d) (himage : d.Image (s.proc p).sz)
    (hsound : d.Sound s.km) (hneg : n < 0) (hpos : 0 < ((s.proc p).sz : Int) + n) :
    (∃ r s', growproc s p n = .ok (r, s') ∧ GrowExact s p d n r s') ↔
      d.Spares s.km (pages (touint ((s.proc p).sz + n))) (pages (s.proc p).sz) := by
  have hnew : (touint ((s.proc p).sz + n) : Int) = (s.proc p).sz + n := by
    have := himage.le_kernbase
    unfold touint KERNBASE at *
    omega
  obtain ⟨d', hrun, hcleared⟩ := resize_down hsound hneg hpos.le himage.le_kernbase
  obtain ⟨s1, hgrow, hd', hsz', hkm⟩ := growExact_done hd (fun _ => by omega) hrun
  have hle : pages (touint ((s.proc p).sz + n)) ≤ pages (s.proc p).sz := pages_mono (by omega)
  have hmapped : ∀ {v e}, d.pte v = some e → v < pages (s.proc p).sz := fun {v e} he =>
    (himage.shaped v).mp (by rw [he]; rfl)
  constructor
  · rintro ⟨r, s', hrun', hexact⟩ v e l l' hv he hframes hlast
    obtain ⟨rfl, rfl⟩ := Prod.mk.inj (Except.ok.inj (hrun'.symm.trans hgrow))
    obtain ⟨d1, -, ⟨hr, -⟩ | ⟨-, -, -, hkept, -⟩⟩ := hexact
    · cases hr
    · -- The page is freed above, so what is in it at `v` is what `kfree` has written.
      have hsame := (hkept v e (hsz'.symm ▸ hv) he).2
      rw [hkm, hframes, Kmem.freed_mem_last hlast] at hsame
      exact hsame.symm
  · intro hspares
    refine ⟨0, s1, hgrow, d', hd', .inr ⟨rfl, ?_, ?_, fun v e hv he => ?_, fun v e hv he => ?_⟩⟩
    · rw [hsz', hnew]
    · rw [hsz']
      refine ⟨fun v => ?_, hle.trans himage.le⟩
      rw [hcleared v]
      split_ifs with hv
      · exact iff_of_false (by simp) (by omega)
      · rw [himage.shaped v]
        omega
    · rw [hsz'] at hv
      refine ⟨?_, ?_⟩
      · rw [hcleared v, if_neg (by omega), he]
      · rw [hkm]
        by_cases hfreed : e.ppn ∈ d.frames (pages (touint ((s.proc p).sz + n)))
          (pages (s.proc p).sz)
        · obtain ⟨l, l', hframes, hlast⟩ := exists_last_of_mem hfreed
          rw [hspares hv he hframes hlast, hframes, Kmem.freed_mem_last hlast]
        · exact Kmem.freed_mem hfreed
    · rw [hcleared v] at he
      split_ifs at he
      have := hmapped he
      omega

/-- Shrinking to nothing, or by more than there is. -/
theorem growproc_below (hd : (s.proc p).pgdir = some d) (himage : d.Image (s.proc p).sz)
    (hsound : d.Sound s.km) (hneg : n < 0) (hn : -2 ^ 31 ≤ n) (hle : ((s.proc p).sz : Int) + n ≤ 0)
    (hsz : (s.proc p).sz ≠ 0) :
    ¬ ∃ r s', growproc s p n = .ok (r, s') ∧ GrowExact s p d n r s' := by
  have hbound := himage.le_kernbase
  rintro ⟨r, s', hgrow, d', hd', hout⟩
  by_cases hzero : ((s.proc p).sz : Int) + n = 0
  · have hnew : touint ((s.proc p).sz + n) = 0 := by rw [hzero]; rfl
    obtain ⟨d1, hrun, hcleared⟩ := resize_down hsound hneg hzero.ge hbound
    rw [hnew] at hrun hcleared
    rw [growproc_eq_ok hd hrun, if_pos ⟨hneg.ne, rfl⟩] at hgrow
    cases hgrow
    obtain ⟨-, -, hpte, -⟩ | ⟨hr, -⟩ := hout
    · -- The first page was there and is gone.
      have hfirst : 0 < pages (s.proc p).sz := by
        unfold pages PGSIZE
        omega
      have hsome := (himage.shaped 0).mpr hfirst
      rw [setVm_proc] at hd'
      cases hd'
      rw [← hpte, hcleared 0, if_pos ⟨le_rfl, hfirst⟩] at hsome
      cases hsome
    · cases hr
  · have hrun : resize d s.km (s.proc p).sz n = .ok ((s.proc p).sz, d, s.km) := by
      rw [resize, if_neg (by omega), if_pos hneg, deallocuvm, if_pos]
      unfold touint KERNBASE at *
      omega
    obtain ⟨s1, hgrow', -, hsz', -⟩ := growExact_done hd (fun _ => hsz) hrun
    obtain ⟨rfl, rfl⟩ := Prod.mk.inj (Except.ok.inj (hgrow.symm.trans hgrow'))
    obtain ⟨hr, -⟩ | ⟨-, hsz'', -⟩ := hout
    · cases hr
    · rw [hsz'] at hsz''
      omega

/-- Nothing is asked for. -/
theorem growproc_zero (hd : (s.proc p).pgdir = some d) (himage : d.Image (s.proc p).sz) :
    ∃ r s', growproc s p 0 = .ok (r, s') ∧ GrowExact s p d 0 r s' := by
  obtain ⟨s', hgrow, hd', hsz', hkm⟩ := growExact_done hd (absurd rfl)
    (show resize d s.km (s.proc p).sz 0 = .ok ((s.proc p).sz, d, s.km) from rfl)
  refine ⟨0, s', hgrow, d, hd',
    .inr ⟨rfl, ?_, ?_, fun v e _ he => ⟨he, by rw [hkm]⟩, fun v e hv he => ?_⟩⟩
  · rw [hsz', Int.add_zero]
  · rwa [hsz']
  · rw [himage.shaped.pte_eq_none hv] at he
    cases he

/-- **`growproc` is exact** unless the process is to shrink to nothing or below it, or loses a page
that it has at a lower address as well. -/
theorem growproc_exact_iff (hd : (s.proc p).pgdir = some d) (himage : d.Image (s.proc p).sz)
    (hsound : d.Sound s.km) (hlo : -2 ^ 31 ≤ n) (hhi : n < 2 ^ 31) :
    (∃ r s', growproc s p n = .ok (r, s') ∧ GrowExact s p d n r s') ↔
      ((s.proc p).sz = 0 ∨ 0 < ((s.proc p).sz : Int) + n) ∧
        d.Spares s.km (pages (touint ((s.proc p).sz + n))) (pages (s.proc p).sz) := by
  have hspares : pages (s.proc p).sz ≤ pages (touint ((s.proc p).sz + n)) →
      d.Spares s.km (pages (touint ((s.proc p).sz + n))) (pages (s.proc p).sz) := by
    intro hle v e l l' _ _ hframes
    rw [Pgdir.frames_eq_nil fun w _ _ => by omega] at hframes
    simp at hframes
  have hbound := himage.le_kernbase
  rcases lt_trichotomy n 0 with hneg | rfl | hpos
  · by_cases hsz : (s.proc p).sz = 0
    · -- There is nothing to take away, and `0` is the old size.
      have hzero : pages (s.proc p).sz = 0 := by
        rw [hsz]
        rfl
      refine iff_of_true ?_ ⟨.inl hsz, hspares (by omega)⟩
      refine growExact_failed hd hneg.ne d s.km ?_ rfl fun _ _ _ => rfl
      rw [resize, if_neg (by omega), if_pos hneg, deallocuvm, if_pos (by omega), hsz]
    · by_cases hle : ((s.proc p).sz : Int) + n ≤ 0
      · refine iff_of_false (growproc_below hd himage hsound hneg hlo hle hsz) fun hcond => ?_
        obtain h0 | h0 := hcond.1
        · exact hsz h0
        · omega
      · rw [growproc_down hd himage hsound hneg (by omega)]
        exact (and_iff_right (.inr (by omega))).symm
  · refine iff_of_true (growproc_zero hd himage) ⟨?_, hspares ?_⟩
    · omega
    · refine pages_mono ?_
      unfold touint KERNBASE at *
      omega
  · refine iff_of_true (growproc_up hd himage hsound hpos hhi) ⟨.inr (by omega), hspares ?_⟩
    refine pages_mono ?_
    unfold touint KERNBASE at *
    omega

/-- A directory that maps the first page of an address space, to `page`. -/
def Pgdir.single (page : ℕ) : Pgdir :=
  { page := 1
    tab := fun i =>
      if i = 0 then some { page := 2, pte := fun j => if j = 0 then some (.user page) else none }
        else none
    kern := [] }

theorem Pgdir.pte_single (page v : ℕ) : (single page).pte v = if v = 0 then some (.user page)
    else none := by
  unfold pte single NPTENTRIES
  dsimp only
  by_cases hv : v = 0
  · simp [hv]
  · by_cases htab : v / 1024 = 0
    · simp [htab, hv, show v % 1024 ≠ 0 by omega]
    · simp [htab, hv]

/-- A kernel with `n` free pages whose first process has one page, which starts with the path `/a`
and may be shared. -/
def Kernel.onePage (shared : Bool) (n : ℕ) : Kernel :=
  { Machinery.small.kernel.setProc 0
      { Proc.zero with
        sz := PGSIZE
        pgdir := some (.single 3)
        name := [97]
        shared_mem := fun i =>
            { in_use := shared && i == 0, name := [97], va := 0, global_ptr := some 0 } } with
    shm := fun _ => { name := [97], pa := 3 * PGSIZE, refcount := 1, in_use := shared,
                      container_id := 0 }
    km := { first := 1, free := List.range' 4 n, mem := fun _ a => [47, 97, 0].getD a 7 } }

theorem single_image : (Pgdir.single 3).Image PGSIZE := by
  refine ⟨fun v => ?_, by decide⟩
  rw [Pgdir.pte_single, show pages PGSIZE = 1 from rfl, Nat.lt_one_iff]
  split_ifs with hv <;> simp [hv]

theorem single_sound (shared : Bool) {n : ℕ} (hn : n ≤ 100) :
    (Pgdir.single 3).Sound (Kernel.onePage shared n).km := by
  have hfree : ∀ f, f ∈ (Kernel.onePage shared n).km.free ↔ 4 ≤ f ∧ f < 4 + n :=
    fun f => List.mem_range'_1
  refine ⟨List.nodup_range', fun f hf => ?_, Nat.one_pos, fun {v e} he => ?_, fun {i t} ht => ?_⟩
  · obtain ⟨hlo, hhi⟩ := (hfree f).mp hf
    exact ⟨show 1 ≤ f by omega, show f < 57344 by omega⟩
  · rw [Pgdir.pte_single] at he
    split_ifs at he
    cases he
    rw [hfree, Pte.user_ppn]
    exact ⟨⟨show 1 ≤ 3 by omega, by decide⟩, by omega⟩
  · unfold Pgdir.single at ht
    dsimp only at ht
    split_ifs at ht
    cases ht
    rw [hfree]
    exact fun hin => absurd hin.1 (by decide)

/-- The process gets a second page. -/
theorem growproc_exact_onePage : ∃ r s', growproc (Kernel.onePage false 2) 0 4096 = .ok (r, s') ∧
    GrowExact (Kernel.onePage false 2) 0 (.single 3) 4096 r s' := by
  refine (growproc_exact_iff rfl single_image (single_sound false (by decide)) (by decide)
    (by decide)).mpr
    ⟨.inr (by decide), fun {v e l l'} _ _ hframes _ => ?_⟩
  have htwo : pages (touint (((Kernel.onePage false 2).proc 0).sz + 4096)) = 2 := by decide
  have hone : pages ((Kernel.onePage false 2).proc 0).sz = 1 := by decide
  rw [Pgdir.frames_eq_nil fun w _ _ => by omega] at hframes
  simp at hframes

/-- `sbrk(-4096)` takes the only page away, and fails. -/
theorem growproc_to_nothing :
    (Pgdir.single 3).Image ((Kernel.onePage false 2).proc 0).sz ∧
      (Pgdir.single 3).Sound (Kernel.onePage false 2).km ∧
      (growproc (Kernel.onePage false 2) 0 (-4096)).toOption.any
        (fun r => r.1 = -1 && (r.2.proc 0).pgdir.any fun d => (d.pte 0).isNone) = true ∧
      ¬ ∃ r s', growproc (Kernel.onePage false 2) 0 (-4096) = .ok (r, s') ∧
        GrowExact (Kernel.onePage false 2) 0 (.single 3) (-4096) r s' :=
  ⟨single_image, (single_sound false (by decide)), by decide +kernel,
    growproc_below rfl single_image (single_sound false (by decide)) (by decide) (by decide)
    (by decide) (by decide)⟩

end Dockv6
