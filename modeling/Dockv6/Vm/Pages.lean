import Dockv6.Foundations.Pool
import Dockv6.Kernel.Exec

/-!
# The pages of an address space

What the functions of `vm.c` do to the pages that a directory takes: itself, its page tables, and
the pages it maps, other than shared ones. They keep these pages apart from each other, from the
free list and from all other pages (`Fits`), as long as they do not free a mapped page that is
shared.
-/

namespace Dockv6

open Function

/-! ## Entries -/

namespace Pgdir

variable {d : Pgdir} {t : PageTable} {v w page i : ℕ} {e : Option Pte}

theorem pte_of_tab (h : d.tab (v / NPTENTRIES) = some t) : d.pte v = t.pte (v % NPTENTRIES) := by
  rw [pte, h]

theorem pte_of_tab_none (h : d.tab (v / NPTENTRIES) = none) : d.pte v = none := by
  rw [pte, h]

theorem div_mod_ne (h : w ≠ v) (hdiv : w / NPTENTRIES = v / NPTENTRIES) :
    w % NPTENTRIES ≠ v % NPTENTRIES := by
  intro hmod
  refine h ?_
  rw [← Nat.div_add_mod w NPTENTRIES, ← Nat.div_add_mod v NPTENTRIES, hdiv, hmod]

theorem pte_setPte (h : d.tab (v / NPTENTRIES) = some t) :
    (d.setPte v e).pte = update d.pte v e := by
  funext w
  rw [update_apply, setPte, h, pte]
  dsimp only
  rw [update_apply]
  by_cases hdiv : w / NPTENTRIES = v / NPTENTRIES
  · rw [if_pos hdiv, pte, hdiv, h]
    dsimp only
    rw [update_apply]
    by_cases hw : w = v
    · rw [if_pos hw, if_pos (by rw [hw])]
    · rw [if_neg hw, if_neg (div_mod_ne hw hdiv)]
  · rw [if_neg hdiv, if_neg (by rintro rfl; exact hdiv rfl), pte]

theorem pte_setPte_none : (d.setPte v none).pte = update d.pte v none := by
  cases h : d.tab (v / NPTENTRIES) with
  | some t => exact pte_setPte h
  | none =>
    rw [setPte, h, ← pte_of_tab_none h, update_eq_self]

theorem pte_addTable (h : d.tab (v / NPTENTRIES) = none) : (d.addTable v page).pte = d.pte := by
  funext w
  unfold addTable pte
  dsimp only
  rw [update_apply]
  by_cases hdiv : w / NPTENTRIES = v / NPTENTRIES
  · rw [if_pos hdiv, hdiv, h]
  · rw [if_neg hdiv]

theorem tab_setPte : ((d.setPte v e).tab i).map PageTable.page = (d.tab i).map PageTable.page := by
  cases h : d.tab (v / NPTENTRIES) with
  | none => rw [setPte, h]
  | some t =>
    rw [setPte, h]
    dsimp only
    rw [update_apply]
    split_ifs with hi
    · rw [hi, h]
      rfl
    · rfl

theorem page_setPte : (d.setPte v e).page = d.page := by
  unfold setPte
  split <;> rfl

theorem kern_setPte : (d.setPte v e).kern = d.kern := by
  unfold setPte
  split <;> rfl

end Pgdir

/-! ## Owners within an address space -/

/-- What a directory takes a page for. -/
inductive Part
  | dir
  | table (i : ℕ)
  | kern (i : ℕ)
  | user (v : ℕ)
  deriving DecidableEq

/-- The pages of a directory. A page that it maps is its own unless it is one of the shared pages
`S`. -/
def Pgdir.own (S : Set ℕ) (d : Pgdir) : Part → Set ℕ
  | .dir => {d.page}
  | .table i => {x | (d.tab i).map PageTable.page = some x}
  | .kern i => {x | d.kern[i]? = some x}
  | .user v => {x | (d.pte v).map Pte.ppn = some x ∧ x ∉ S}

/-- The directory's own pages, the free pages and the pages `kept` by others are different pages.
The shared pages are kept by others, and mapped only where `T` says that the process uses them. -/
structure Fits (kept S : Set ℕ) (T : ℕ → ℕ → Prop) (d : Pgdir) (m : Kmem) : Prop where
  pool : Pool kept m.free (d.own S)
  shared : S ⊆ kept
  backed : ∀ v e, d.pte v = some e → e.ppn ∈ S → T v e.ppn

/-- With more shared pages, fewer pages are its own. -/
theorem Pgdir.own_anti {S S' : Set ℕ} {d : Pgdir} {k : Part} {x : ℕ}
    (hS : ∀ v e, d.pte v = some e → e.ppn ∈ S → e.ppn ∈ S') (hx : x ∈ d.own S' k) :
    x ∈ d.own S k := by
  cases k with
  | dir => exact hx
  | table i => exact hx
  | kern i => exact hx
  | user v =>
    obtain ⟨e, he, rfl⟩ := Option.map_eq_some_iff.mp hx.1
    exact ⟨hx.1, fun hmem => hx.2 (hS v e he hmem)⟩

/-- No pages. -/
abbrev noPages : Part → Set ℕ := fun _ => ∅

/-- The address space that a function has made, if there was memory for it. -/
def Built (kept S : Set ℕ) (T : ℕ → ℕ → Prop) (r : Option Pgdir) (m : Kmem) : Prop :=
  match r with
  | none => Pool kept m.free noPages
  | some d => Fits kept S T d m

namespace Fits

variable {kept S : Set ℕ} {T : ℕ → ℕ → Prop} {d : Pgdir} {m m' : Kmem} {x v : ℕ}

/-- Only the list of free pages matters. -/
theorem congr (h : Fits kept S T d m) (hfree : m'.free = m.free) : Fits kept S T d m' :=
  { h with pool := by rw [hfree]; exact h.pool }

theorem weaken {T' : ℕ → ℕ → Prop} (h : Fits kept S T d m) (hT : ∀ v x, T v x → T' v x) :
    Fits kept S T' d m :=
  { h with backed := fun v e he hS => hT v e.ppn (h.backed v e he hS) }

/-- A page that was mapped privately is the directory's own. -/
theorem mem_own {e : Pte} (he : d.pte v = some e) (hS : e.ppn ∉ S) : e.ppn ∈ d.own S (.user v) :=
  ⟨by rw [he]; rfl, hS⟩

/-- A mapped page is not free. -/
theorem notFree {e : Pte} (h : Fits kept S T d m) (he : d.pte v = some e) : e.ppn ∉ m.free := by
  by_cases hS : e.ppn ∈ S
  · exact h.pool.kept_notFree (h.shared hS)
  · exact h.pool.notFree (mem_own he hS)

theorem take {free : List ℕ} (h : Fits kept S T d m) (hm : m.free = x :: free)
    (hm' : m'.free = free) : Fits (insert x kept) S T d m' where
  pool := by
    rw [hm']
    have hpool := h.pool
    rw [hm] at hpool
    exact hpool.take
  shared := h.shared.trans (Set.subset_insert x kept)
  backed := h.backed

theorem forget (h : Fits (insert x kept) S T d m) (hS : S ⊆ kept) : Fits kept S T d m :=
  ⟨h.pool.mono (Set.subset_insert x kept) fun _ => subset_rfl, hS, h.backed⟩

/-- The page that was kept aside is freed. -/
theorem putBack (h : Fits (insert x kept) S T d m) (hx : x ∉ kept) (hS : S ⊆ kept)
    (hm : kfree m x = .ok m') : Fits kept S T d m' := by
  obtain ⟨-, -, rfl⟩ := kfree_eq_ok hm
  refine ⟨?_, hS, h.backed⟩
  exact h.pool.put (h.pool.kept_notFree (Set.mem_insert x kept)) (Set.subset_insert x kept)
    (fun _ => subset_rfl) hx fun a ha => h.pool.notKept ha (Set.mem_insert x kept)

/-- The own pages of a directory in which one entry has changed. -/
theorem own_of_update {d' : Pgdir} {e : Option Pte} (hpte : d'.pte = update d.pte v e)
    (hpage : d'.page = d.page) (hkern : d'.kern = d.kern)
    (htab : ∀ i, (d'.tab i).map PageTable.page = (d.tab i).map PageTable.page) {k : Part} {y : ℕ}
    (hy : y ∈ d'.own S k) : y ∈ d.own S k ∧ k ≠ .user v ∨ k = .user v ∧
    e.map Pte.ppn = some y ∧ y ∉ S := by
  cases k with
  | dir => exact .inl ⟨by simpa only [Pgdir.own, hpage] using hy, nofun⟩
  | table i => exact .inl ⟨by simpa only [Pgdir.own, htab] using hy, nofun⟩
  | kern i => exact .inl ⟨by simpa only [Pgdir.own, hkern] using hy, nofun⟩
  | user w =>
    obtain ⟨hw, hS⟩ := hy
    rw [hpte, update_apply] at hw
    split_ifs at hw with hwv
    · exact .inr ⟨by rw [hwv], hw, hS⟩
    · exact .inl ⟨⟨hw, hS⟩, fun heq => hwv (Part.user.inj heq)⟩

theorem own_setPte {t : PageTable} {e : Option Pte} (htab : d.tab (v / NPTENTRIES) = some t)
    {k : Part} {y : ℕ} (hy : y ∈ (d.setPte v e).own S k) :
    y ∈ d.own S k ∧ k ≠ .user v ∨ k = .user v ∧ e.map Pte.ppn = some y ∧ y ∉ S :=
  own_of_update (Pgdir.pte_setPte htab) Pgdir.page_setPte Pgdir.kern_setPte
    (fun _ => Pgdir.tab_setPte) hy

theorem own_setPte_none {k : Part} {y : ℕ} (hy : y ∈ (d.setPte v none).own S k) :
    y ∈ d.own S k ∧ k ≠ .user v := by
  refine (own_of_update Pgdir.pte_setPte_none Pgdir.page_setPte Pgdir.kern_setPte
    (fun _ => Pgdir.tab_setPte) hy).resolve_right fun h => ?_
  cases h.2.1

/-- The page that was kept aside is mapped. -/
theorem setPte_own {t : PageTable} {e : Pte} (h : Fits (insert x kept) S T d m) (hx : x ∉ kept)
    (hS : S ⊆ kept) (htab : d.tab (v / NPTENTRIES) = some t) (he : e.ppn = x) :
    Fits kept S T (d.setPte v (some e)) m := by
  refine ⟨h.pool.give hx (a := .user v) fun k y hy => ?_, hS, fun w e' hw hwS => ?_⟩
  · obtain ⟨hy, -⟩ | ⟨hk, hy, -⟩ := own_setPte htab hy
    · exact .inl hy
    · exact .inr ⟨hk, (Option.some.inj hy).symm.trans he⟩
  · rw [Pgdir.pte_setPte htab, update_apply] at hw
    split_ifs at hw with hwv
    · cases hw
      exact absurd (hS (he ▸ hwS)) hx
    · exact h.backed w e' hw hwS

/-- A shared page is mapped. -/
theorem setPte_shared {t : PageTable} {e : Pte} (h : Fits kept S T d m)
    (htab : d.tab (v / NPTENTRIES) = some t) (heS : e.ppn ∈ S) (hT : T v e.ppn) :
    Fits kept S T (d.setPte v (some e)) m := by
  refine ⟨h.pool.mono subset_rfl fun k y hy => ?_, h.shared, fun w e' hw hwS => ?_⟩
  · obtain ⟨hy, -⟩ | ⟨-, hy, hyS⟩ := own_setPte htab hy
    · exact hy
    · exact absurd (Option.some.inj hy ▸ heS) hyS
  · rw [Pgdir.pte_setPte htab, update_apply] at hw
    split_ifs at hw with hwv
    · cases hw
      rw [hwv]
      exact hT
    · exact h.backed w e' hw hwS

theorem backed_setPte_none (h : ∀ v e, d.pte v = some e → e.ppn ∈ S → T v e.ppn) (v : ℕ) :
    ∀ w e, (d.setPte v none).pte w = some e → e.ppn ∈ S → T w e.ppn := by
  intro w e hw
  rw [Pgdir.pte_setPte_none, update_apply] at hw
  split_ifs at hw
  exact h w e hw

/-- A page of the directory's own is unmapped and freed. -/
theorem free {e : Pte} (h : Fits kept S T d m) (he : d.pte v = some e) (heS : e.ppn ∉ S)
    (hm : kfree m e.ppn = .ok m') : Fits kept S T (d.setPte v none) m' := by
  obtain ⟨-, -, rfl⟩ := kfree_eq_ok hm
  have hown := mem_own he heS
  refine ⟨?_, h.shared, backed_setPte_none h.backed v⟩
  refine h.pool.put (h.notFree he) subset_rfl (fun k y hy => (own_setPte_none hy).1)
    (h.pool.notKept hown) fun k hk => ?_
  obtain ⟨hk, hne⟩ := own_setPte_none hk
  exact hne (h.pool.unique hk hown)

/-- Flags of an entry change. -/
theorem setFlags {t : PageTable} {e e' : Pte} (h : Fits kept S T d m)
    (htab : d.tab (v / NPTENTRIES) = some t) (he : d.pte v = some e) (hppn : e'.ppn = e.ppn) :
    Fits kept S T (d.setPte v (some e')) m := by
  refine ⟨h.pool.mono subset_rfl fun k y hy => ?_, h.shared, fun w e'' hw hwS => ?_⟩
  · obtain ⟨hy, -⟩ | ⟨rfl, hy, hyS⟩ := own_setPte htab hy
    · exact hy
    · refine ⟨?_, hyS⟩
      rw [he]
      exact (congrArg some hppn).symm.trans hy
  · rw [Pgdir.pte_setPte htab, update_apply] at hw
    split_ifs at hw with hwv
    · cases hw
      rw [hwv, hppn]
      exact h.backed v e he (hppn ▸ hwS)
    · exact h.backed w e'' hw hwS

/-- An empty page table is installed in the page that was kept aside. -/
theorem addTable (h : Fits (insert x kept) S T d m) (hx : x ∉ kept) (hS : S ⊆ kept)
    (htab : d.tab (v / NPTENTRIES) = none) : Fits kept S T (d.addTable v x) m := by
  have hpte : (d.addTable v x).pte = d.pte := Pgdir.pte_addTable htab
  refine ⟨h.pool.give hx (a := .table (v / NPTENTRIES)) fun k y hy => ?_, hS, fun w e hw => ?_⟩
  · cases k with
    | dir => exact .inl hy
    | kern i => exact .inl hy
    | user w =>
      obtain ⟨hw, hyS⟩ := hy
      rw [hpte] at hw
      exact .inl ⟨hw, hyS⟩
    | table i =>
      have hi : ((update d.tab (v / NPTENTRIES) (some ⟨x, fun _ => none⟩)) i).map PageTable.page =
          some y := hy
      rw [update_apply] at hi
      split_ifs at hi with hiv
      · exact .inr ⟨by rw [hiv], (Option.some.inj hi).symm⟩
      · exact .inl hi
  · rw [hpte] at hw
    exact h.backed w e hw

end Fits

/-! ## Mapping -/

section Mapping

variable {kept S : Set ℕ} {T : ℕ → ℕ → Prop} {d d' d1 : Pgdir} {m m' m1 : Kmem}
  {x v pa perm : ℕ} {ok : Bool}

/-- There is a page table for `v`, installed now if it was missing. -/
inductive Tabled (d : Pgdir) (m : Kmem) (v : ℕ) : Pgdir → Kmem → Prop
  | present (t : PageTable) (h : d.tab (v / NPTENTRIES) = some t) : Tabled d m v d m
  | added (page : ℕ) (free : List ℕ) (htab : d.tab (v / NPTENTRIES) = none)
      (hfree : m.free = page :: free) :
      Tabled d m v (d.addTable v page) (Kmem.zero { m with free := free } page)

namespace Tabled

theorem tab (h : Tabled d m v d1 m1) : ∃ t, d1.tab (v / NPTENTRIES) = some t := by
  cases h with
  | present t h => exact ⟨t, h⟩
  | added page => exact ⟨_, update_self ..⟩

theorem pte (h : Tabled d m v d1 m1) : d1.pte = d.pte := by
  cases h with
  | present => rfl
  | added page free htab => exact Pgdir.pte_addTable htab

theorem length (h : Tabled d m v d1 m1) : m.free.length ≤ m1.free.length + 1 := by
  cases h with
  | present => exact Nat.le_succ _
  | added page free htab hfree =>
    rw [hfree]
    rfl

theorem fits (h : Tabled d m v d1 m1) (hfits : Fits kept S T d m) : Fits kept S T d1 m1 := by
  cases h with
  | present => exact hfits
  | added page free htab hfree =>
    have hkept : page ∉ kept := fun hk => hfits.pool.kept_notFree hk (hfree ▸ List.mem_cons_self)
    exact (hfits.take hfree rfl).addTable hkept hfits.shared htab

end Tabled

theorem mapPage_cases (h : mapPage d m v pa perm = .ok (ok, d', m')) :
    v < NUSERPAGES ∧ d.pte v = none ∧
      ((ok = false ∧ d' = d ∧ m' = m ∧ m.free = []) ∨
        ok = true ∧ ∃ d1, Tabled d m v d1 m' ∧ d' = d1.setPte v (some (.make pa perm))) := by
  unfold mapPage at h
  split_ifs at h with hv
  refine ⟨Nat.lt_of_not_le hv, ?_⟩
  split at h
  · rename_i t ht
    split at h
    · cases h
    · rename_i hpte
      cases h
      exact ⟨hpte, .inr ⟨rfl, d, .present t ht, rfl⟩⟩
  · rename_i htab
    refine ⟨Pgdir.pte_of_tab_none htab, ?_⟩
    split at h
    · rename_i hk
      cases h
      exact .inl ⟨rfl, rfl, rfl, kalloc_eq_none hk⟩
    · rename_i page m1 hk
      cases h
      obtain ⟨hfree, hm1⟩ := kalloc_eq_some hk
      refine .inr ⟨rfl, d.addTable v page, ?_, rfl⟩
      rw [hm1]
      exact .added page m1.free htab hfree

/-- One page at the start of a page is one round. -/
theorem mappages_page : mappages d m (v * PGSIZE) PGSIZE pa perm = mapPage d m v pa perm := by
  have hone : (v * PGSIZE + PGSIZE - 1) / PGSIZE - v * PGSIZE / PGSIZE + 1 = 1 := by
    unfold PGSIZE
    omega
  rw [mappages, hone, Nat.mul_div_cancel v (by decide : 0 < PGSIZE), mapRounds]
  cases hmap : mapPage d m v pa perm with
  | error e => rfl
  | ok r =>
    obtain ⟨ok, d', m'⟩ := r
    cases ok <;> rfl

theorem mapPage_length (h : mapPage d m v pa perm = .ok (ok, d', m')) :
    m.free.length ≤ m'.free.length + 1 ∧ (m.free ≠ [] → ok = true) := by
  obtain ⟨-, -, ⟨-, -, rfl, hfree⟩ | ⟨rfl, d1, htabled, -⟩⟩ := mapPage_cases h
  · exact ⟨Nat.le_succ _, fun hne => absurd hfree hne⟩
  · exact ⟨htabled.length, fun _ => rfl⟩

/-- The page that was kept aside is mapped, or is still kept aside. -/
theorem Fits.mapPage_own (h : Fits (insert x kept) S T d m) (hx : x ∉ kept) (hS : S ⊆ kept)
    (hmap : mapPage d m v (x * PGSIZE) perm = .ok (ok, d', m')) :
    if ok then Fits kept S T d' m' else Fits (insert x kept) S T d' m' := by
  obtain ⟨-, -, ⟨rfl, rfl, rfl, -⟩ | ⟨rfl, d1, htabled, rfl⟩⟩ := mapPage_cases hmap
  · exact h
  · obtain ⟨t, ht⟩ := htabled.tab
    exact (htabled.fits h).setPte_own hx hS ht (Nat.mul_div_cancel x (by decide : 0 < PGSIZE))

/-- A shared page is mapped where `T` allows it. -/
theorem Fits.mapPage_shared (h : Fits kept S T d m) (hpa : pa / PGSIZE ∈ S) (hT : T v (pa / PGSIZE))
    (hmap : mapPage d m v pa perm = .ok (ok, d', m')) : Fits kept S T d' m' := by
  obtain ⟨-, -, ⟨-, rfl, rfl, -⟩ | ⟨-, d1, htabled, rfl⟩⟩ := mapPage_cases hmap
  · exact h
  · obtain ⟨t, ht⟩ := htabled.tab
    exact (htabled.fits h).setPte_shared ht hpa hT

end Mapping

/-! ## Release -/

section Release

variable {kept S : Set ℕ} {T : ℕ → ℕ → Prop} {d d' : Pgdir} {m m' : Kmem} {v hi oldsz newsz n : ℕ}

theorem deallocRounds_fits (h : Fits kept S T d m) (hT : ∀ w x, v ≤ w → w < hi → ¬ T w x)
    (hrun : deallocRounds n d m v hi = .ok (d', m')) : Fits kept S T d' m' := by
  induction n generalizing d m v with
  | zero =>
    cases hrun
    exact h
  | succ n ih =>
    rw [deallocRounds] at hrun
    split_ifs at hrun with hv
    · have hnext : ∀ w x, v + 1 ≤ w → w < hi → ¬ T w x := fun w x hw =>
        hT w x (Nat.le_of_succ_le hw)
      split at hrun
      · refine ih h (fun w x hw => hT w x (le_trans ?_ hw)) hrun
        unfold NPTENTRIES
        omega
      · rename_i t ht
        split at hrun
        · exact ih h hnext hrun
        · rename_i e he
          split_ifs at hrun
          obtain ⟨m1, hm1, hrun⟩ := bind_eq_ok.mp hrun
          have hpte : d.pte v = some e := (Pgdir.pte_of_tab ht).trans he
          have hS : e.ppn ∉ S := fun heS => hT v e.ppn le_rfl hv (h.backed v e hpte heS)
          exact ih (h.free hpte hS hm1) hnext hrun
    · cases hrun
      exact h

theorem deallocuvm_fits {sz : ℕ} (h : Fits kept S T d m)
    (hT : ∀ w x, pages newsz ≤ w → w < pages oldsz → ¬ T w x)
    (hrun : deallocuvm d m oldsz newsz = .ok (sz, d', m')) : Fits kept S T d' m' := by
  unfold deallocuvm at hrun
  split_ifs at hrun
  · cases hrun
    exact h
  · obtain ⟨⟨d1, m1⟩, hrounds, hrun⟩ := bind_eq_ok.mp hrun
    cases hrun
    exact deallocRounds_fits h hT hrounds

/-- The pages of a list, each of which has an owner, are freed, or some of them forgotten. -/
theorem freeAll_pool {shared l : List ℕ} {own : Part → Set ℕ} (h : Pool kept m.free own)
    (hl : l.Nodup) (hown : ∀ x ∈ l, ∃ k, x ∈ own k) (hrun : freeAll shared m l = .ok m') :
    Pool kept m'.free fun k => own k \ {x | x ∈ l} := by
  induction l generalizing m own with
  | nil =>
    cases hrun
    exact h.mono subset_rfl fun k x hx => hx.1
  | cons page l ih =>
    obtain ⟨hpage, hl⟩ := List.nodup_cons.mp hl
    rw [freeAll] at hrun
    split_ifs at hrun
    · refine (ih h hl (fun x hx => hown x (List.mem_cons_of_mem page hx)) hrun).mono subset_rfl ?_
      exact fun k x hx => ⟨hx.1, fun hxl => hx.2 (List.mem_cons_of_mem page hxl)⟩
    · obtain ⟨m1, hm1, hrun⟩ := bind_eq_ok.mp hrun
      obtain ⟨-, -, rfl⟩ := kfree_eq_ok hm1
      obtain ⟨k, hk⟩ := hown page List.mem_cons_self
      have hput : Pool kept (page :: m.free) fun k => own k \ {page} :=
        h.put (h.notFree hk) subset_rfl (fun k x hx => hx.1) (h.notKept hk) fun k hk => hk.2 rfl
      refine (ih hput hl (fun x hx => ?_) hrun).mono subset_rfl fun k x hx => ?_
      · obtain ⟨k, hk⟩ := hown x (List.mem_cons_of_mem page hx)
        exact ⟨k, hk, fun heq => hpage (heq ▸ hx)⟩
      · exact ⟨⟨hx.1, fun heq => hx.2 (heq ▸ List.mem_cons_self)⟩,
          fun hxl => hx.2 (List.mem_cons_of_mem page hxl)⟩

/-- The pages of the page tables are own pages, and different ones. -/
theorem Fits.tables_own (h : Fits kept S T d m) :
    d.tables.Nodup ∧ ∀ x ∈ d.tables, (∃ i, x ∈ d.own S (.table i)) ∨
    ∃ i, x ∈ d.own S (.kern i) := by
  have htab : ∀ x ∈ (List.range (NUSERPAGES / NPTENTRIES)).filterMap fun i =>
      (d.tab i).map PageTable.page, ∃ i, x ∈ d.own S (.table i) := by
    intro x hx
    obtain ⟨i, -, hi⟩ := List.mem_filterMap.mp hx
    exact ⟨i, hi⟩
  have hkern : ∀ x ∈ d.kern, ∃ i, x ∈ d.own S (.kern i) := fun x hx => List.mem_iff_getElem?.mp hx
  refine ⟨List.Nodup.append ?_ ?_ ?_, fun x hx => (List.mem_append.mp hx).imp (htab x) (hkern x)⟩
  · refine List.Nodup.filterMap (fun i j x hi hj => ?_) List.nodup_range
    exact Part.table.inj (h.pool.unique (a := .table i) (b := .table j) hi hj)
  · refine List.nodup_iff_getElem?_ne_getElem?.mpr fun i j hij hj heq => ?_
    obtain ⟨x, hx⟩ : ∃ x, d.kern[j]? = some x := ⟨_, List.getElem?_eq_getElem hj⟩
    have hsame := h.pool.unique (a := .kern i) (b := .kern j) (heq.trans hx) hx
    exact hij.ne (Part.kern.inj hsame)
  · intro x hx hx'
    obtain ⟨i, hi⟩ := htab x hx
    obtain ⟨j, hj⟩ := hkern x hx'
    cases h.pool.unique hi hj

/-- A directory that maps no shared page is freed. -/
theorem freevm_pool {shared : List ℕ} (h : Fits kept S T d m) (hT : ∀ w x, ¬ T w x)
    (hrun : freevm shared d m = .ok m') : Pool kept m'.free noPages := by
  obtain ⟨⟨sz, d1, m1⟩, hdealloc, hrun⟩ := bind_eq_ok.mp hrun
  obtain ⟨m2, hall, hlast⟩ := bind_eq_ok.mp hrun
  have h1 := deallocuvm_fits h (fun w x _ _ => hT w x) hdealloc
  obtain ⟨hnodup, hown⟩ := h1.tables_own
  have h2 := freeAll_pool h1.pool hnodup
    (fun x hx => (hown x hx).elim (fun ⟨i, hi⟩ => ⟨_, hi⟩) fun ⟨i, hi⟩ => ⟨_, hi⟩) hall
  obtain ⟨-, -, rfl⟩ := kfree_eq_ok hlast
  -- The directory's page is none of the pages of its tables.
  have hdir : d1.page ∈ d1.own S .dir \ {x | x ∈ d1.tables} := by
    refine ⟨rfl, fun hmem => ?_⟩
    rw [Set.mem_ofPred_eq] at hmem
    obtain ⟨i, hi⟩ | ⟨i, hi⟩ := hown d1.page hmem
    · cases h1.pool.unique (a := .dir) rfl hi
    · cases h1.pool.unique (a := .dir) rfl hi
  exact h2.put (h2.notFree hdir) subset_rfl (fun _ => Set.empty_subset _) (h2.notKept hdir) fun _ =>
    id

end Release

/-! ## Allocation -/

section Allocation

variable {kept S : Set ℕ} {T : ℕ → ℕ → Prop} {d d' : Pgdir} {m m' : Kmem}
  {oldsz newsz sz n v page : ℕ}

theorem Fits.taken {free : List ℕ} (h : Fits kept S T d m) (hfree : m.free = page :: free) :
    page ∉ kept ∧ ∀ mem, Fits (insert page kept) S T d { m with free := free, mem := mem } :=
  ⟨fun hmem => h.pool.kept_notFree hmem (hfree ▸ List.mem_cons_self), fun _ => h.take hfree rfl⟩

theorem Fits.kalloc (h : Fits kept S T d m) (hk : kalloc m = some (page, m')) :
    page ∉ kept ∧ ∀ mem, Fits (insert page kept) S T d { m' with mem := mem } := by
  obtain ⟨hfree, hm'⟩ := kalloc_eq_some hk
  rw [hm']
  exact h.taken hfree

theorem allocRounds_fits (h : Fits kept S T d m)
    (hT : ∀ w x, pages oldsz ≤ w → w < pages newsz → ¬ T w x)
    (hrun : allocRounds n d m v oldsz newsz = .ok (sz, d', m')) : Fits kept S T d' m' := by
  induction n generalizing d m v with
  | zero =>
    cases hrun
    exact h
  | succ n ih =>
    rw [allocRounds] at hrun
    split at hrun
    · obtain ⟨⟨sz1, d1, m1⟩, hdealloc, hrun⟩ := bind_eq_ok.mp hrun
      cases hrun
      exact deallocuvm_fits h hT hdealloc
    · rename_i page m1 hk
      obtain ⟨hpage, h1⟩ := h.kalloc hk
      obtain ⟨⟨ok, d2, m2⟩, hmap, hrun⟩ := bind_eq_ok.mp hrun
      rw [mappages_page] at hmap
      have h2 := (h1 _).mapPage_own hpage h.shared hmap
      dsimp only at hrun
      split_ifs at hrun h2
      · exact ih h2 hrun
      · obtain ⟨⟨sz3, d3, m3⟩, hdealloc, hrun⟩ := bind_eq_ok.mp hrun
        obtain ⟨m4, hfree, hrun⟩ := bind_eq_ok.mp hrun
        cases hrun
        exact (deallocuvm_fits h2 hT hdealloc).putBack hpage h.shared hfree

theorem allocuvm_fits (h : Fits kept S T d m)
    (hT : ∀ w x, pages oldsz ≤ w → w < pages newsz → ¬ T w x)
    (hrun : allocuvm d m oldsz newsz = .ok (sz, d', m')) : Fits kept S T d' m' := by
  unfold allocuvm at hrun
  split_ifs at hrun
  · cases hrun
    exact h
  · cases hrun
    exact h
  · exact allocRounds_fits h hT hrun

/-- A directory without user pages. -/
def Pgdir.bare (page : ℕ) (kern : List ℕ) : Pgdir :=
  { page := page, tab := fun _ => none, kern := kern }

theorem kernTables_fits {kern kern' : List ℕ} {ok : Bool} (h : Fits kept S T (.bare page kern) m)
    (hrun : kernTables n m kern = (ok, kern', m')) : Fits kept S T (.bare page kern') m' := by
  induction n generalizing m kern with
  | zero =>
    cases hrun
    exact h
  | succ n ih =>
    rw [kernTables] at hrun
    split at hrun
    · cases hrun
      exact h
    · rename_i page' m1 hk
      obtain ⟨hpage', h1⟩ := h.kalloc hk
      refine ih ⟨(h1 _).pool.give hpage' (a := .kern kern.length) fun k y hy => ?_, h.shared, nofun⟩
        hrun
      cases k with
      | dir => exact .inl hy
      | table i => exact .inl hy
      | user v => exact .inl hy
      | kern i =>
        have hi : (kern ++ [page'])[i]? = some y := hy
        rw [List.getElem?_append] at hi
        split_ifs at hi with hlt
        · exact .inl hi
        · rw [List.getElem?_singleton] at hi
          split_ifs at hi with hi0
          exact .inr ⟨congrArg Part.kern (by omega), (Option.some.inj hi).symm⟩

theorem setupkvm_fits {shared : List ℕ} {r : Option Pgdir} (h : Pool kept m.free noPages)
    (hS : S ⊆ kept) (hrun : setupkvm shared m = .ok (r, m')) : Built kept S T r m' := by
  unfold setupkvm at hrun
  split at hrun
  · cases hrun
    exact h
  · rename_i page m1 hk
    obtain ⟨hfree, -⟩ := kalloc_eq_some hk
    have hpage : page ∉ kept := fun hmem => h.kept_notFree hmem (hfree ▸ List.mem_cons_self)
    rw [hfree] at h
    have hbare : ∀ T, Fits kept S T (.bare page []) (m1.zero page) := by
      intro T
      refine ⟨h.take.give hpage (a := .dir) fun k y hy => ?_, hS, nofun⟩
      cases k with
      | dir => exact .inr ⟨rfl, hy⟩
      | table i => cases hy
      | kern i => cases hy
      | user v => cases hy.1
    dsimp only at hrun
    cases hkern : kernTables NKERNTABLES (m1.zero page) [] with
    | mk ok rest =>
      obtain ⟨kern, m2⟩ := rest
      rw [hkern] at hrun
      dsimp only at hrun
      split_ifs at hrun
      · cases hrun
        exact kernTables_fits (hbare T) hkern
      · obtain ⟨m3, hvm, hrun⟩ := bind_eq_ok.mp hrun
        cases hrun
        exact freevm_pool (kernTables_fits (hbare fun _ _ => False) hkern) (fun _ _ => id) hvm

/-- The first pages are taken from the free list and cleared. -/
def Kmem.taken (m : Kmem) (n : ℕ) : Kmem :=
  { m with
    free := m.free.drop n
    mem := fun page => if page ∈ m.free.take n then fun _ => 0 else m.mem page }

theorem Kmem.taken_succ {free : List ℕ} (hfree : m.free = page :: free) :
    m.taken (n + 1) = (Kmem.zero { m with free := free } page).taken n := by
  unfold taken zero
  simp only [hfree, List.drop_succ_cons, List.take_succ_cons, List.mem_cons,
    Kmem.mk.injEq, true_and]
  funext f
  by_cases hf : f = page
  · simp [hf]
  · simp [hf, update_of_ne]

/-- **The page tables of the kernel half** are the first free pages, as far as there are enough. -/
theorem kernTables_eq {kern : List ℕ} :
    kernTables n m kern = (decide (n ≤ m.free.length), kern ++ m.free.take n, m.taken n) := by
  induction n generalizing m kern with
  | zero => simp [kernTables, Kmem.taken]
  | succ n ih =>
    rw [kernTables]
    split
    · rename_i hk
      have hnone := kalloc_eq_none hk
      have hlen : ¬ n + 1 ≤ m.free.length := by simp [hnone]
      have hsame : m.taken (n + 1) = m := by
        unfold Kmem.taken
        simp only [hnone, List.take_nil, List.drop_nil, List.not_mem_nil, if_false]
        rw [← hnone]
      rw [decide_eq_false hlen, hsame, hnone, List.take_nil, List.append_nil]
    · rename_i page m1 hk
      obtain ⟨hfree, hm1⟩ := kalloc_eq_some hk
      rw [ih, Kmem.taken_succ hfree, ← hm1, hfree]
      have hlen : (m1.zero page).free = m1.free := rfl
      simp [hlen]

/-- **`setupkvm`**, when there is a page for the directory. -/
theorem setupkvm_eq {shared free : List ℕ} (hfree : m.free = page :: free) :
    setupkvm shared m =
      if NKERNTABLES ≤ free.length then
        .ok (some (.bare page (free.take NKERNTABLES)), m.taken (NKERNTABLES + 1))
      else do
        let m ← freevm shared (.bare page (free.take NKERNTABLES)) (m.taken (NKERNTABLES + 1))
        return (none, m) := by
  unfold setupkvm
  have hk : kalloc m = some (page, { m with free := free }) := by
    unfold kalloc
    rw [hfree]
  rw [hk]
  dsimp only
  rw [kernTables_eq, ← Kmem.taken_succ hfree]
  simp only [decide_eq_true_eq]
  rfl

/-- The directory and the page tables of the kernel half. -/
theorem setupkvm_ok {shared : List ℕ} {r : Option Pgdir} (hfree : NKERNTABLES + 1 ≤ m.free.length)
    (hrun : setupkvm shared m = .ok (r, m')) :
    r ≠ none ∧ m.free.length = m'.free.length + (NKERNTABLES + 1) := by
  obtain ⟨page, free, hcons⟩ := List.exists_cons_of_length_pos (by omega : 0 < m.free.length)
  have hlen : m.free.length = free.length + 1 := by rw [hcons, List.length_cons]
  rw [setupkvm_eq hcons, if_pos (by omega)] at hrun
  cases hrun
  refine ⟨nofun, ?_⟩
  show _ = (m.free.drop (NKERNTABLES + 1)).length + _
  rw [List.length_drop]
  omega

end Allocation

/-! ## Images -/

section Images

variable {kept S : Set ℕ} {T : ℕ → ℕ → Prop} {d d' par : Pgdir} {m m' : Kmem} {n v : ℕ}

/-- The page `v` is one that no entry of `held` is for. -/
def Pgdir.isOwn (par : Pgdir) (held : List (ℕ × ℕ)) (v : ℕ) : Bool :=
  (par.pte v).any fun e => (held.find? fun h => h.1 == e.ppn * PGSIZE).isNone

/-- **A round of the loop of `copyuvm`** at a page with the entry `e`: whether it is the process's
own, `cm`, `skip` and what the loop returns. `rest` is the rest of the loop. -/
inductive CopyRound (held : List (ℕ × ℕ)) (e : Pte) (v : ℕ) (d : Pgdir) (m : Kmem)
    (rest : Bool → Pgdir → Kmem → Prop) : Bool → Bool → Bool → Bool × Pgdir × Kmem → Prop
  | passed {skip r} (hrest : rest true d m) : CopyRound held e v d m rest false true skip r
  | shared {a ok d1 m1 skip r} (ha : a ∈ held) (hpa : a.1 = e.ppn * PGSIZE)
      (hmap : mappages d m a.2 PGSIZE (e.ppn * PGSIZE) e.flags = .ok (ok, d1, m1))
        (hrest : rest false d1 m1) :
      CopyRound held e v d m rest false false skip r
  | skipped {cm r} (hrest : rest true d m) : CopyRound held e v d m rest true cm true r
  | noPage {cm} (hfree : m.free = []) : CopyRound held e v d m rest true cm false (false, d, m)
  | taken {page free ok d1 m1 cm r} (hfree : m.free = page :: free)
      (hmap : mapPage d { m with free := free, mem := update m.mem page (m.mem e.ppn) } v
        (page * PGSIZE)
        e.flags = .ok (ok, d1, m1)) (hrest : if ok then rest false d1 m1 else r = (false, d1, m1)) :
      CopyRound held e v d m rest true cm false r

theorem copyRounds_cases {held : List (ℕ × ℕ)} {cm skip : Bool} {r : Bool × Pgdir × Kmem}
    (h : copyRounds par held cm (n + 1) v skip d m = .ok r) :
    ∃ e own, par.pte v = some e ∧ par.isOwn held v = own ∧
      CopyRound held e v d m (fun skip d m => copyRounds par held cm n (v + 1) skip d m = .ok r) own
      cm skip r := by
  rw [copyRounds] at h
  split at h
  · cases h
  rename_i t ht
  split at h
  · cases h
  rename_i e he
  have hpte : par.pte v = some e := (Pgdir.pte_of_tab ht).trans he
  refine ⟨e, _, hpte, rfl, ?_⟩
  simp only [Pgdir.isOwn, hpte, Option.any_some]
  split at h
  · rename_i a ha
    rw [ha]
    split_ifs at h with hcm
    · subst hcm
      exact .passed h
    · obtain ⟨⟨ok, d1, m1⟩, hmap, hrest⟩ := bind_eq_ok.mp h
      obtain rfl : cm = false := by simpa using hcm
      exact .shared (List.mem_of_find?_eq_some ha) (by simpa using List.find?_some ha) hmap hrest
  · rename_i hnone
    rw [hnone]
    split_ifs at h with hskip
    · subst hskip
      exact .skipped h
    obtain rfl : skip = false := by simpa using hskip
    split at h
    · rename_i hk
      cases h
      exact .noPage (kalloc_eq_none hk)
    · rename_i page m1 hk
      obtain ⟨hfree, hm1⟩ := kalloc_eq_some hk
      rw [hm1] at h
      obtain ⟨⟨ok, d2, m2⟩, hmap, hrest⟩ := bind_eq_ok.mp h
      rw [mappages_page] at hmap
      refine .taken hfree hmap ?_
      dsimp only at hrest
      split_ifs at hrest ⊢
      · exact hrest
      · cases hrest
        rfl

/-- The copy of an address space. The shared pages are mapped where the entries in `held` say. -/
theorem copyRounds_fits {held : List (ℕ × ℕ)} {cm skip ok : Bool} (h : Fits kept S T d m)
    (hheld : ∀ a ∈ held, a.1 / PGSIZE ∈ S ∧ a.2 % PGSIZE = 0 ∧
      (cm = false → T (a.2 / PGSIZE) (a.1 / PGSIZE)))
    (hrun : copyRounds par held cm n v skip d m = .ok (ok, d', m')) : Fits kept S T d' m' := by
  induction n generalizing v skip d m with
  | zero =>
    cases hrun
    exact h
  | succ n ih =>
    obtain ⟨e, own, -, -, hround⟩ := copyRounds_cases hrun
    cases hround with
    | passed hrest => exact ih h hrest
    | skipped hrest => exact ih h hrest
    | noPage => exact h
    | @shared a _ _ _ _ _ ha hpa hmap hrest =>
      obtain ⟨hS, haligned, hT⟩ := hheld a ha
      have hva : a.2 / PGSIZE * PGSIZE = a.2 := Nat.div_mul_cancel (Nat.dvd_of_mod_eq_zero haligned)
      rw [← hva, mappages_page, ← hpa] at hmap
      exact ih (h.mapPage_shared hS (hT rfl) hmap) hrest
    | taken hfree hmap hrest =>
      obtain ⟨hpage, h1⟩ := h.taken hfree
      have h2 := (h1 _).mapPage_own hpage h.shared hmap
      split_ifs at hrest h2
      · exact ih h2 hrest
      · -- The page for the copy is lost.
        cases hrest
        exact h2.forget h.shared

theorem copyRounds_ok {held : List (ℕ × ℕ)} {cm skip ok : Bool} (hfree : 2 * n ≤ m.free.length)
    (hheld : ∀ a ∈ held, a.2 % PGSIZE = 0)
    (hrun : copyRounds par held cm n v skip d m = .ok (ok, d', m')) : ok = true := by
  induction n generalizing v skip d m with
  | zero =>
    cases hrun
    rfl
  | succ n ih =>
    obtain ⟨e, own, -, -, hround⟩ := copyRounds_cases hrun
    cases hround with
    | passed hrest => exact ih (by omega) hrest
    | skipped hrest => exact ih (by omega) hrest
    | noPage hnil =>
      rw [hnil, List.length_nil] at hfree
      omega
    | @shared a _ _ _ _ _ ha _ hmap hrest =>
      have hva : a.2 / PGSIZE * PGSIZE = a.2 :=
        Nat.div_mul_cancel (Nat.dvd_of_mod_eq_zero (hheld a ha))
      rw [← hva, mappages_page] at hmap
      have hlen := (mapPage_length hmap).1
      exact ih (by omega) hrest
    | taken hcons hmap hrest =>
      rw [hcons, List.length_cons] at hfree
      obtain ⟨hlen, hok⟩ := mapPage_length hmap
      dsimp only at hlen hok
      rw [hok (List.ne_nil_of_length_pos (by omega))] at hrest
      exact ih (by omega) hrest

/-- The address space of a child. A copy that fails is freed, so there must be no shared page in it,
or else memory enough for the whole. -/
theorem copyuvm_fits {s : Kernel} {p : PIdx} {sz : ℕ} {r : Option Pgdir}
    (h : Pool kept s.km.free noPages) (hS : S ⊆ kept)
    (hheld : ∀ a ∈ s.heldPages p, a.1 / PGSIZE ∈ S ∧ a.2 % PGSIZE = 0 ∧
      (isCm (s.proc p).name = false → T (a.2 / PGSIZE) (a.1 / PGSIZE)))
    (hroom : (∀ w x, ¬ T w x) ∨ NKERNTABLES + 1 + 2 * pages sz ≤ s.km.free.length)
    (hrun : copyuvm s p par sz = .ok (r, m')) : Built kept S T r m' := by
  obtain ⟨⟨d0, m0⟩, hkvm, hrun⟩ := bind_eq_ok.mp hrun
  have h0 := setupkvm_fits (T := T) h hS hkvm
  rcases d0 with _ | d0
  · cases hrun
    exact h0
  obtain ⟨⟨ok, d1, m1⟩, hcopy, hrun⟩ := bind_eq_ok.mp hrun
  have h1 : Fits kept S T d1 m1 := copyRounds_fits h0 hheld hcopy
  dsimp only at hrun
  split_ifs at hrun with hok
  · cases hrun
    exact h1
  · obtain ⟨m2, hfree, hrun⟩ := bind_eq_ok.mp hrun
    cases hrun
    obtain hT | hroom := hroom
    · exact freevm_pool h1 hT hfree
    · obtain ⟨-, hlen⟩ := setupkvm_ok (by omega) hkvm
      exact absurd (copyRounds_ok (by omega) (fun a ha => (hheld a ha).2.1) hcopy) hok

theorem loadSegments_fits {data : Bytes} {off sz : ℕ} {r : Option ℕ} (h : Fits kept S T d m)
    (hT : ∀ w x, ¬ T w x) (hrun : loadSegments data n off sz d m = .ok (r, d', m')) :
    Fits kept S T d' m' := by
  induction n generalizing off sz d m with
  | zero =>
    cases hrun
    exact h
  | succ n ih =>
    rw [loadSegments] at hrun
    split at hrun
    · cases hrun
      exact h
    · split_ifs at hrun
      · exact ih h hrun
      · cases hrun
        exact h
      · obtain ⟨⟨sz1, d1, m1⟩, halloc, hrun⟩ := bind_eq_ok.mp hrun
        have h1 := allocuvm_fits h (fun w x _ _ => hT w x) halloc
        dsimp only at hrun
        split_ifs at hrun
        · cases hrun
          exact h1
        · obtain ⟨⟨ok, mem⟩, -, hrun⟩ := bind_eq_ok.mp hrun
          have h2 : Fits kept S T d1 { m1 with mem := mem } := h1.congr rfl
          dsimp only at hrun
          split_ifs at hrun
          · exact ih h2 hrun
          · cases hrun
            exact h2

theorem clearpteu_fits (h : Fits kept S T d m) (hrun : clearpteu d v = .ok d') :
    Fits kept S T d' m := by
  unfold clearpteu at hrun
  split at hrun
  · cases hrun
  · rename_i t ht
    split at hrun
    · cases hrun
      exact h
    · rename_i e he
      cases hrun
      exact h.setFlags ht ((Pgdir.pte_of_tab ht).trans he) rfl

theorem buildStack_fits {sz : ℕ} {argv : List Bytes} {r : Option NewImage} (h : Fits kept S T d m)
    (hT : ∀ w x, ¬ T w x) (hrun : buildStack d m sz argv = .ok (r, d', m')) :
    Fits kept S T d' m' ∧ ∀ img, r = some img → img.d = d' := by
  obtain ⟨⟨sz1, d1, m1⟩, halloc, hrun⟩ := bind_eq_ok.mp hrun
  have h1 := allocuvm_fits h (fun w x _ _ => hT w x) halloc
  dsimp only at hrun
  split_ifs at hrun
  · cases hrun
    exact ⟨h1, nofun⟩
  obtain ⟨d2, hclear, hrun⟩ := bind_eq_ok.mp hrun
  have h2 := clearpteu_fits h1 hclear
  obtain ⟨⟨sp, mem⟩, -, hrun⟩ := bind_eq_ok.mp hrun
  cases hrun
  refine ⟨h2.congr rfl, fun img himg => ?_⟩
  obtain ⟨sp', -, rfl⟩ := Option.map_eq_some_iff.mp himg
  rfl

theorem buildImage_fits {data : Bytes} {elf : Elfhdr} {argv : List Bytes} {r : Option NewImage}
    (h : Fits kept S T d m) (hT : ∀ w x, ¬ T w x)
    (hrun : buildImage data elf argv d m = .ok (r, d', m')) :
    Fits kept S T d' m' ∧ ∀ img, r = some img → img.d = d' := by
  obtain ⟨⟨sz, d1, m1⟩, hload, hrun⟩ := bind_eq_ok.mp hrun
  have h1 := loadSegments_fits h hT hload
  rcases sz with _ | sz
  · cases hrun
    exact ⟨h1, nofun⟩
  · exact buildStack_fits h1 hT hrun

end Images

end Dockv6
