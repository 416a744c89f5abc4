import Dockv6.Vm.Pages
import Dockv6.Vm.Panics

/-!
# Address spaces without holes

A directory is `Shaped` up to `n` if exactly the first `n` pages are mapped. `mappages` at `n` moves
the end by one page and never panics there, `allocuvm` and `deallocuvm` move it to the new size, and
`copyuvm` keeps it.
-/

namespace Dockv6

open Function

/-- Exactly the first `n` pages are mapped. -/
def Pgdir.Shaped (d : Pgdir) (n : ℕ) : Prop := ∀ v, (d.pte v).isSome = true ↔ v < n

/-- The pages of an image of `sz` bytes are mapped, and no others. -/
structure Pgdir.Image (d : Pgdir) (sz : ℕ) : Prop where
  shaped : d.Shaped (pages sz)
  le : pages sz ≤ NUSERPAGES

/-- Exactly the pages below `lo` and those from `v` to `hi` are mapped. -/
def Pgdir.Gap (d : Pgdir) (lo v hi : ℕ) : Prop :=
  ∀ w, (d.pte w).isSome = true ↔ w < lo ∨ v ≤ w ∧ w < hi

section Directories

variable {d d' : Pgdir} {m m' : Kmem} {n v lo hi pa perm oldsz newsz : ℕ} {e : Option Pte}

/-! ## Entries -/

theorem Pgdir.Shaped.pte_eq_none (h : d.Shaped n) (hv : n ≤ v) : d.pte v = none := by
  rw [← Option.not_isSome_iff_eq_none, h v]
  omega

theorem Pgdir.Shaped.pte_eq_some (h : d.Shaped n) (hv : v < n) : ∃ e, d.pte v = some e :=
  Option.isSome_iff_exists.mp ((h v).mpr hv)

theorem Pgdir.Shaped.gap (h : d.Shaped hi) (hlo : lo ≤ hi) : d.Gap lo lo hi := by
  intro w
  rw [h w]
  omega

theorem Pgdir.Gap.shaped (h : d.Gap lo v hi) (hv : hi ≤ v) : d.Shaped lo := by
  intro w
  rw [h w]
  omega

/-- One more page is mapped. -/
theorem Pgdir.Shaped.of_update {e : Pte} (h : d.Shaped n)
    (hpte : d'.pte = update d.pte n (some e)) : d'.Shaped (n + 1) := by
  intro w
  rw [hpte, update_apply]
  split_ifs with hw
  · simp [hw]
  · rw [h w]
    omega

/-- The last page is unmapped. -/
theorem Pgdir.Shaped.pop (h : d.Shaped (n + 1)) : (d.setPte n none).Shaped n := by
  intro w
  rw [pte_setPte_none, update_apply]
  split_ifs with hw
  · simp [hw]
  · rw [h w]
    omega

theorem Pgdir.Gap.unmap (h : d.Gap lo v hi) (hlo : lo ≤ v) :
    (d.setPte v none).Gap lo (v + 1) hi := by
  intro w
  rw [pte_setPte_none, update_apply]
  split_ifs with hw
  · simp only [Option.isSome_none, Bool.false_eq_true, false_iff]
    omega
  · rw [h w]
    omega

/-- Where no page is mapped, the gap is as large as one likes. -/
theorem Pgdir.Gap.skip {v' : ℕ} (h : d.Gap lo v hi) (hnone : d.pte v = none) (hv : v ≤ v') :
    d.Gap lo v' hi := by
  have hnot := h v
  rw [hnone] at hnot
  intro w
  rw [h w]
  simp only [Option.isSome_none, Bool.false_eq_true, false_iff] at hnot
  omega

/-! ## Mapping and unmapping -/

/-- Mapping the page at the end moves the end. -/
theorem mapPage_shaped (h : d.Shaped v) (hv : v < NUSERPAGES) :
    Ensures Stop.holes (mapPage d m v pa perm) fun (ok, d', m') =>
      d'.Shaped (if ok then v + 1 else v) ∧ m.free.length ≤ m'.free.length + 1 ∧
      (m.free ≠ [] → ok = true) where
  value {r} hmap := by
    obtain ⟨ok, d', m'⟩ := r
    refine ⟨?_, mapPage_length hmap⟩
    obtain ⟨-, -, ⟨rfl, rfl, -, -⟩ | ⟨rfl, d1, htabled, rfl⟩⟩ := mapPage_cases hmap
    · exact h
    · obtain ⟨t, ht⟩ := htabled.tab
      refine h.of_update (e := .make pa perm) ?_
      rw [Pgdir.pte_setPte ht, htabled.pte]
  stop {e} hmap := by
    rw [mapPage, if_neg (by omega), h.pte_eq_none le_rfl] at hmap
    split at hmap
    · cases hmap
    · split at hmap <;> cases hmap

/-- The loop of `deallocuvm` closes the gap, if it has rounds enough. -/
theorem deallocRounds_shaped {top : ℕ} (h : d.Gap lo v top) (hlo : lo ≤ v) (htop : top ≤ hi)
    (hn : hi ≤ v + n) :
    Ensures Stop.holes (deallocRounds n d m v hi) fun (d', _) => d'.Shaped lo := by
  induction n generalizing d m v with
  | zero => exact .pure (h.shaped (by omega))
  | succ n ih =>
    rw [deallocRounds]
    refine .ite (fun hv => ?_) fun hv => .pure (h.shaped (by omega))
    split
    · rename_i htab
      refine ih (h.skip (Pgdir.pte_of_tab_none htab) ?_) ?_ ?_ <;> unfold NPTENTRIES <;> omega
    · rename_i t ht
      split
      · rename_i he
        refine ih (h.skip ((Pgdir.pte_of_tab ht).trans he) (Nat.le_succ v)) ?_ ?_ <;> omega
      · refine .ite (fun _ => .throw (by decide)) fun _ => (kfree_safe m _).bind fun m' _ => ?_
        exact ih (h.unmap hlo) (by omega) (by omega)

theorem pages_mono (h : newsz ≤ oldsz) : pages newsz ≤ pages oldsz := by
  unfold pages PGSIZE
  omega

theorem pages_le_of_lt (h : newsz < KERNBASE) : pages newsz ≤ NUSERPAGES := by
  unfold pages NUSERPAGES PGSIZE KERNBASE at *
  omega

/-- `deallocuvm` from any end between the two sizes. -/
theorem deallocuvm_shaped (h : d.Shaped n) (hlo : newsz < oldsz → pages newsz ≤ n)
    (hhi : n ≤ pages oldsz) : Ensures Stop.holes (deallocuvm d m oldsz newsz) fun (r, d', _) =>
      oldsz ≤ newsz ∧ r = oldsz ∧ d' = d ∨ newsz < oldsz ∧ r = newsz ∧ d'.Shaped (pages newsz) := by
  refine .ite (fun hle => .pure (.inl ⟨hle, rfl, rfl⟩)) fun hlt => ?_
  have hgap := h.gap (hlo (by omega))
  refine (deallocRounds_shaped hgap le_rfl hhi (by omega)).bind fun ⟨d', m'⟩ hd' => ?_
  exact .pure (.inr ⟨by omega, rfl, hd'⟩)

/-- A failure of `allocuvm` at any page takes back what it has mapped. -/
theorem undo_shaped (h : d.Shaped v) (hold : pages oldsz ≤ v) (hv : v < pages newsz) :
    Ensures Stop.holes (deallocuvm d m newsz oldsz) fun (_, d', _) => d'.Shaped (pages oldsz) := by
  refine (deallocuvm_shaped h (fun _ => hold) hv.le).imp fun ⟨r, d', m'⟩ hr => ?_
  obtain ⟨hle, -, -⟩ | ⟨-, -, hd'⟩ := hr
  · have := pages_mono hle
    omega
  · exact hd'

theorem allocRounds_shaped (h : d.Shaped v) (hold : pages oldsz ≤ v) (hn : v + n = pages newsz)
    (hsz : pages newsz ≤ NUSERPAGES) :
    Ensures Stop.holes (allocRounds n d m v oldsz newsz) fun (r, d', _) =>
      r = newsz ∧ d'.Shaped (pages newsz) ∨ r = 0 ∧ d'.Shaped (pages oldsz) := by
  induction n generalizing d m v with
  | zero =>
    obtain rfl : v = pages newsz := hn
    exact .pure (.inl ⟨rfl, h⟩)
  | succ n ih =>
    rw [allocRounds]
    split
    · refine (undo_shaped h hold (by omega)).bind ?_
      rintro ⟨r, d', m'⟩ hd'
      exact .pure (.inr ⟨rfl, hd'⟩)
    · rename_i page m1 _
      rw [mappages_page]
      refine (mapPage_shaped h (by omega)).bind ?_
      rintro ⟨ok, d', m'⟩ ⟨hd', _, _⟩
      cases ok with
      | true => exact ih hd' (by omega) (by omega)
      | false =>
        refine (undo_shaped (m := m') hd' hold (by simp; omega)).bind ?_
        rintro ⟨r, d'', m''⟩ hd''
        exact (kfree_safe m'' page).bind fun _ _ => .pure (.inr ⟨rfl, hd''⟩)

theorem allocuvm_image (h : d.Image oldsz) :
    Ensures Stop.holes (allocuvm d m oldsz newsz) fun (r, d', _) =>
    d'.Image (if r = 0 then oldsz else r) := by
  refine .ite (fun _ => .pure h) fun hsz => .ite (fun _ => .pure ?_) fun hle => ?_
  · show d.Image _
    rwa [ite_self]
  have hle := pages_mono (Nat.le_of_not_lt hle)
  have hbound := pages_le_of_lt (Nat.lt_of_not_le hsz)
  refine (allocRounds_shaped h.shaped le_rfl (by omega) hbound).imp fun ⟨r, d', m'⟩ hr => ?_
  show d'.Image _
  obtain ⟨rfl, hd'⟩ | ⟨rfl, hd'⟩ := hr
  · split_ifs with hzero
    · have hnone : pages r = pages oldsz :=
        Nat.le_antisymm (hzero ▸ pages_mono (Nat.zero_le oldsz)) hle
      exact ⟨hnone ▸ hd', h.le⟩
    · exact ⟨hd', hbound⟩
  · exact ⟨hd', h.le⟩

/-- The sizes that `growproc` goes to. Size `0` is what `allocuvm` returns when it fails, so
`growproc` must not shrink to it. -/
theorem resize_image {sz : ℕ} {k : Int} (h : d.Image sz) (hk : k < 0 → touint (sz + k) ≠ 0) :
    Ensures Stop.holes (resize d m sz k) fun (r, d', _) =>
    d'.Image (if k ≠ 0 ∧ r = 0 then sz else r) := by
  unfold resize
  refine .ite (fun hpos => ?_) fun _ => .ite (fun hneg => ?_) fun hzero => ?_
  · refine (allocuvm_image h).imp fun ⟨r, d', m'⟩ hd' => ?_
    simpa [hpos.ne'] using hd'
  · have hlo : touint (sz + k) < sz → pages (touint (sz + k)) ≤ pages sz := fun hlt =>
      pages_mono hlt.le
    refine (deallocuvm_shaped h.shaped hlo le_rfl).imp fun ⟨r, d', m'⟩ hr => ?_
    show d'.Image _
    obtain ⟨-, rfl, rfl⟩ | ⟨hlt, rfl, hd'⟩ := hr
    · rwa [ite_self]
    · rw [if_neg fun hzero => hk hneg hzero.2]
      exact ⟨hd', (pages_mono hlt.le).trans h.le⟩
  · refine .pure ?_
    show d.Image _
    rwa [if_neg fun hne => hne.1 (by omega)]

/-! ## Copies -/

theorem setupkvm_shaped {shared : List ℕ} :
    Ensures Stop.holes (setupkvm shared m) fun (r, _) => ∀ d, r = some d → d.Shaped 0 := by
  unfold setupkvm
  split
  · exact .pure nofun
  · generalize kernTables _ _ [] = tables
    obtain ⟨ok, kern, m'⟩ := tables
    refine .ite (fun _ => .pure fun d hd => ?_) fun _ => freevm_safe.bind fun _ _ => .pure nofun
    cases hd
    exact fun v => ⟨nofun, nofun⟩

/-- The copy of an image without holes, by a process that is not the container manager. The shared
pages of the parent are where its entries say, and there is memory for their page tables. -/
theorem copyRounds_shaped {par : Pgdir} {held : List (ℕ × ℕ)} (h : d.Shaped v)
    (hpar : ∀ w < v + n, ∃ e, par.pte w = some e) (hn : v + n ≤ NUSERPAGES)
    (hheld : ∀ w e a, par.pte w = some e → a ∈ held → a.1 = e.ppn * PGSIZE → a.2 = w * PGSIZE)
    (hroom : held = [] ∨ 2 * n ≤ m.free.length) :
    Ensures Stop.holes (copyRounds par held false n v false d m) fun (ok, d', _) =>
      ok = true → d'.Shaped (v + n) := by
  induction n generalizing v d m with
  | zero => exact .pure fun _ => h
  | succ n ih =>
    obtain ⟨e, he⟩ := hpar v (by omega)
    have hnext : ∀ w < v + 1 + n, ∃ e, par.pte w = some e := fun w hw => hpar w (by omega)
    have hend : v + (n + 1) = v + 1 + n := by omega
    rw [copyRounds, hend]
    split
    · rename_i htab
      rw [Pgdir.pte_of_tab_none htab] at he
      cases he
    rename_i t ht
    rw [Pgdir.pte_of_tab ht] at he
    rw [he]
    dsimp only
    split
    · -- A shared page; the free page for its table is there.
      rename_i a ha
      have hmem := List.mem_of_find?_eq_some ha
      have hva : a.2 = v * PGSIZE :=
        hheld v e a ((Pgdir.pte_of_tab ht).trans he) hmem (by simpa using List.find?_some ha)
      have hlen : 2 * (n + 1) ≤ m.free.length := hroom.resolve_left (List.ne_nil_of_mem hmem)
      rw [if_neg (by decide), hva, mappages_page]
      refine (mapPage_shaped h (by omega)).bind ?_
      rintro ⟨ok, d', m'⟩ ⟨hd', hm', hok⟩
      rw [hok (List.ne_nil_of_length_pos (by omega))] at hd'
      exact ih hd' hnext (by omega) (.inr (by dsimp only at *; omega))
    · rw [if_neg (by decide)]
      split
      · exact .pure (by simp)
      · rename_i page m1 hk
        obtain ⟨hcons, -⟩ := kalloc_eq_some hk
        rw [mappages_page]
        refine (mapPage_shaped h (by omega)).bind ?_
        rintro ⟨ok, d', m'⟩ ⟨hd', hm', _⟩
        cases ok with
        | false => exact .pure (by simp)
        | true =>
          refine ih hd' hnext (by omega) (hroom.imp_right fun hlen => ?_)
          rw [hcons, List.length_cons] at hlen
          dsimp only at hm' ⊢
          omega

theorem copyuvm_image {s : Kernel} {p : PIdx} {par : Pgdir} {sz : ℕ} (hpar : par.Image sz)
    (hcm : isCm (s.proc p).name = false)
    (hheld : ∀ w e a, par.pte w = some e → a ∈ s.heldPages p → a.1 = e.ppn * PGSIZE →
      a.2 = w * PGSIZE)
    (hroom : s.heldPages p = [] ∨ NKERNTABLES + 1 + 2 * pages sz ≤ s.km.free.length) :
    Ensures Stop.holes (copyuvm s p par sz) fun (r, _) => ∀ d, r = some d → d.Image sz := by
  have hkvm : Ensures Stop.holes (setupkvm (s.sharedPas p) s.km) fun (r, m) =>
      (∀ d, r = some d → d.Shaped 0) ∧ (s.heldPages p = [] ∨ 2 * pages sz ≤ m.free.length) := by
    refine ⟨fun {r} hrun => ⟨setupkvm_shaped.value hrun, hroom.imp_right fun hlen => ?_⟩,
      setupkvm_shaped.stop⟩
    have := (setupkvm_ok (by omega) hrun).2
    omega
  refine hkvm.bind fun ⟨r, m⟩ ⟨hd, hm⟩ => ?_
  cases r with
  | none => exact .pure nofun
  | some d =>
    dsimp only
    rw [hcm]
    refine (copyRounds_shaped (hd d rfl) ?_ ?_ hheld hm).bind fun ⟨ok, d', m'⟩ hd' => ?_
    · exact fun w hw => hpar.shaped.pte_eq_some (by omega)
    · exact (Nat.zero_add _).trans_le hpar.le
    · refine .ite (fun hok => .pure fun d hd => ?_) fun _ => freevm_safe.bind fun _ _ => .pure nofun
      cases hd
      exact ⟨by simpa using hd' hok, hpar.le⟩

end Directories

end Dockv6
