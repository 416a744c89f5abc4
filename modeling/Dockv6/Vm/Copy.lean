import Dockv6.Vm.Grow

/-!
# The copy of an address space

`copyuvm` copies a page that is not shared to a page of the free list, and maps a shared one again.
When the page table for a shared page cannot be allocated, this goes unnoticed.
-/

namespace Dockv6

open Kernel Function

variable {s : Kernel} {p : PIdx} {par d d' d1 : Pgdir} {held : List (ℕ × ℕ)} {m m' m0 m1 : Kmem}
  {v w n N sz page : ℕ} {e : Pte}

/-- Page tables for the first `v` pages. -/
def tablesFor (v : ℕ) : ℕ := (v + NPTENTRIES - 1) / NPTENTRIES

/-- The pages that the copy of the first `v` pages takes from the free list. -/
def Pgdir.copyCount (par : Pgdir) (held : List (ℕ × ℕ)) (v : ℕ) : ℕ :=
  (List.range v).countP (par.isOwn held) + tablesFor v

theorem Pgdir.copyCount_mono (par : Pgdir) (held : List (ℕ × ℕ)) (h : v ≤ w) :
    par.copyCount held v ≤ par.copyCount held w := by
  have hsub : (List.range v).Sublist (List.range w) := List.range_sublist.mpr h
  have htab : tablesFor v ≤ tablesFor w := by
    unfold tablesFor
    exact Nat.div_le_div_right (by omega)
  exact Nat.add_le_add (hsub.countP_le) htab

theorem Pgdir.copyCount_succ (par : Pgdir) (held : List (ℕ × ℕ)) (v : ℕ) :
    par.copyCount held (v + 1) + tablesFor v =
      par.copyCount held v + (if par.isOwn held v then 1 else 0) + tablesFor (v + 1) := by
  unfold copyCount
  rw [List.range_succ, List.countP_append, List.countP_singleton]
  omega

/-! ## Page tables -/

/-- A page that fails to be mapped has no page table. -/
theorem mapPage_noTable {pa perm : ℕ} (h : mapPage d m v pa perm = .ok (false, d', m')) :
    d.tab (v / NPTENTRIES) = none := by
  unfold mapPage at h
  split_ifs at h
  split at h
  · split at h <;> cases h
  · assumption

theorem tablesFor_succ (h : tablesFor v ≤ v / NPTENTRIES) :
    tablesFor (v + 1) = tablesFor v + 1 := by
  unfold tablesFor NPTENTRIES at *
  omega

/-- There are page tables for the first `v` pages, and no others. -/
def Pgdir.HasTables (d : Pgdir) (v : ℕ) : Prop := ∀ i, d.tab i = none ↔ tablesFor v ≤ i

theorem Tabled.took (h : Tabled d m v d1 m1) : m.Took m1 := by
  cases h with
  | present => exact .refl m
  | added page free _ hfree => exact .take hfree _

theorem Tabled.hasTables (h : Tabled d m v d1 m1) (htab : d.HasTables v) :
    d1.HasTables (v + 1) ∧ m.free.length + tablesFor v = m1.free.length + tablesFor (v + 1) := by
  have hv := htab (v / NPTENTRIES)
  cases h with
  | present t ht =>
    rw [ht] at hv
    have hsame : tablesFor (v + 1) = tablesFor v := by
      simp only [reduceCtorEq, false_iff] at hv
      unfold tablesFor NPTENTRIES at *
      omega
    unfold Pgdir.HasTables
    rw [hsame]
    exact ⟨htab, rfl⟩
  | added page free hnone hfree =>
    have hlast : tablesFor v = v / NPTENTRIES ∧ tablesFor (v + 1) = v / NPTENTRIES + 1 := by
      have := hv.mp hnone
      unfold tablesFor NPTENTRIES at *
      omega
    refine ⟨fun i => ?_, ?_⟩
    · unfold Pgdir.addTable
      dsimp only
      rw [update_apply, hlast.2]
      split_ifs with hi
      · simp [hi]
      · rw [htab i, hlast.1]
        omega
    · rw [hfree, List.length_cons, hlast.1, hlast.2]
      unfold Kmem.zero
      dsimp only
      omega

theorem Pgdir.HasTables.setPte (h : d.HasTables n) (e : Option Pte) :
    (d.setPte v e).HasTables n := by
  intro i
  have hsame : (d.setPte v e).tab i = none ↔ d.tab i = none := by
    rw [← Option.map_eq_none_iff (f := PageTable.page), tab_setPte, Option.map_eq_none_iff]
  rw [hsame, h i]

/-! ## The loop -/

/-- What the loop of `copyuvm` relies on: the pages are there, with the bit `PTE_P`, and are not
free, and a shared page is mapped where its entry says, and nowhere else. -/
structure Copyee (par : Pgdir) (held : List (ℕ × ℕ)) (m0 : Kmem) (N : ℕ) : Prop where
  present : ∀ v < N, ∃ e, par.pte v = some e
  flagged : ∀ {v e}, par.pte v = some e → e.flags ||| PTE_P = e.flags
  notFree : ∀ {v e}, par.pte v = some e → e.ppn ∉ m0.free
  nodup : m0.free.Nodup
  mapped : ∀ {v e a}, par.pte v = some e → a ∈ held → a.1 = e.ppn * PGSIZE → a.2 = v * PGSIZE

/-- The first `v` pages have been copied from `par`, with the memory `m0` at the start. -/
structure Copied (par : Pgdir) (held : List (ℕ × ℕ)) (m0 : Kmem) (v : ℕ) (d : Pgdir) (m : Kmem) :
    Prop extends m0.Took m where
  shared : ∀ {w e}, w < v → par.pte w = some e → par.isOwn held w = false → d.pte w = some e
  own : ∀ {w e}, w < v → par.pte w = some e → par.isOwn held w = true →
    ∃ f, d.pte w = some ⟨f, e.flags⟩ ∧ f ∈ m0.free ∧ f ∉ m.free ∧ m.mem f = m0.mem e.ppn
  inj : ∀ {w w' e e'}, w < v → w' < v → par.isOwn held w = true → par.isOwn held w' = true →
    d.pte w = some e → d.pte w' = some e' → e.ppn = e'.ppn → w = w'
  none : ∀ {w}, v ≤ w → d.pte w = none
  hasTables : d.HasTables v
  room : m0.free.length = m.free.length + par.copyCount held v

theorem Pte.make_of_flagged {f fl : ℕ} (h : fl ||| PTE_P = fl) :
    Pte.make (f * PGSIZE) fl = ⟨f, fl⟩ := by
  unfold Pte.make
  rw [Nat.mul_div_cancel f (by decide), Nat.mul_mod_left, Nat.zero_or, h]

namespace Copied

theorem start (hd : d = .bare page l) (m : Kmem) : Copied par held m 0 d m where
  toTook := .refl m
  shared hw := absurd hw (Nat.not_lt_zero _)
  own hw := absurd hw (Nat.not_lt_zero _)
  inj hw := absurd hw (Nat.not_lt_zero _)
  none {w} _ := by
    rw [hd]
    rfl
  hasTables i := by
    rw [hd]
    exact iff_of_true rfl (Nat.zero_le i)
  room := rfl

/-- A shared page is mapped again. -/
theorem share (h : Copied par held m0 v d m) (hpar : Copyee par held m0 N) (he : par.pte v = some e)
    (hown : par.isOwn held v = false) (htab : Tabled d m v d1 m1) :
    Copied par held m0 (v + 1) (d1.setPte v (some (.make (e.ppn * PGSIZE) e.flags))) m1 := by
  obtain ⟨t, ht⟩ := htab.tab
  obtain ⟨htables, hlength⟩ := htab.hasTables h.hasTables
  have hcount := Pgdir.copyCount_succ par held v
  rw [hown, if_neg (by decide)] at hcount
  have hpte : ∀ u, u ≠ v → (d1.setPte v (some (.make (e.ppn * PGSIZE) e.flags))).pte u = d.pte u :=
      fun u hu => by
    rw [Pgdir.pte_setPte ht, update_of_ne hu, htab.pte]
  refine ⟨h.toTook.trans htab.took, fun {w e'} hw he' hw' => ?_, fun {w e'} hw he' hw' => ?_,
    fun {w w' e1 e2} hw hw' ho ho' he1 he2 => ?_, fun {w} hw => ?_, htables.setPte _, ?_⟩
  · by_cases hwv : w = v
    · subst hwv
      obtain rfl : e = e' := Option.some.inj (he.symm.trans he')
      rw [Pgdir.pte_setPte ht, update_self, Pte.make_of_flagged (hpar.flagged he)]
    · rw [hpte w hwv]
      exact h.shared (by omega) he' hw'
  · have hwv : w ≠ v := by
      rintro rfl
      cases hown.symm.trans hw'
    obtain ⟨f, hf, hin, hout, hmem⟩ := h.own (by omega) he' hw'
    refine ⟨f, ?_, hin, fun hin' => hout (htab.took.free.subset hin'), ?_⟩
    · rw [hpte w hwv, hf]
    · rw [htab.took.mem f hout, hmem]
  · have hne : ∀ {u}, par.isOwn held u = true → u ≠ v := by
      rintro u hu rfl
      cases hown.symm.trans hu
    rw [hpte w (hne ho)] at he1
    rw [hpte w' (hne ho')] at he2
    have hlt := hne ho
    have hlt' := hne ho'
    exact h.inj (by omega) (by omega) ho ho' he1 he2
  · rw [hpte w (by omega)]
    exact h.none (by omega)
  · have := h.room
    omega

/-- A page is taken from the free list, filled and mapped. -/
theorem copy (h : Copied par held m0 v d m) (hpar : Copyee par held m0 N) (he : par.pte v = some e)
    (hown : par.isOwn held v = true) {free : List ℕ} (hfree : m.free = page :: free)
    (htab : Tabled d { m with free := free, mem := update m.mem page (m.mem e.ppn) } v d1 m1) :
    Copied par held m0 (v + 1) (d1.setPte v (some (.make (page * PGSIZE) e.flags))) m1 := by
  obtain ⟨t, ht⟩ := htab.tab
  obtain ⟨htables, hlength⟩ := htab.hasTables h.hasTables
  have hcount := Pgdir.copyCount_succ par held v
  rw [hown, if_pos rfl] at hcount
  have htook := (Kmem.Took.take hfree (m.mem e.ppn)).trans htab.took
  have hpage : page ∈ m.free := hfree ▸ List.mem_cons_self
  have hout : page ∉ free := by
    have hnodup := h.toTook.nodup hpar.nodup
    rw [hfree] at hnodup
    exact (List.nodup_cons.mp hnodup).1
  have hpte : ∀ u, u ≠ v → (d1.setPte v (some (.make (page * PGSIZE) e.flags))).pte u = d.pte u :=
      fun u hu => by
    rw [Pgdir.pte_setPte ht, update_of_ne hu, htab.pte]
  have hself : (d1.setPte v (some (.make (page * PGSIZE) e.flags))).pte v =
      some ⟨page, e.flags⟩ := by
    rw [Pgdir.pte_setPte ht, update_self, Pte.make_of_flagged (hpar.flagged he)]
  -- The pages of the copy so far are not free any more, so the new one is none of them.
  have hnew : ∀ {w e'}, w < v → par.isOwn held w = true → d.pte w = some e' → e'.ppn ≠ page := by
    intro w e' hw ho he' heq
    obtain ⟨e2, he2⟩ : ∃ e2, par.pte w = some e2 := by
      unfold Pgdir.isOwn at ho
      cases hpw : par.pte w with
      | none =>
        rw [hpw] at ho
        cases ho
      | some e2 => exact ⟨e2, rfl⟩
    obtain ⟨f, hf, -, hnot, -⟩ := h.own hw he2 ho
    obtain rfl : e' = ⟨f, e2.flags⟩ := Option.some.inj (he'.symm.trans hf)
    have hf' : f = page := heq
    exact hnot (hf' ▸ hpage)
  refine ⟨h.toTook.trans htook, fun {w e'} hw he' hw' => ?_, fun {w e'} hw he' hw' => ?_,
    fun {w w' e1 e2} hw hw' ho ho' he1 he2 heq => ?_, fun {w} hw => ?_, htables.setPte _, ?_⟩
  · have hwv : w ≠ v := by
      rintro rfl
      cases hown.symm.trans hw'
    rw [hpte w hwv]
    exact h.shared (by omega) he' hw'
  · by_cases hwv : w = v
    · subst hwv
      obtain rfl : e = e' := Option.some.inj (he.symm.trans he')
      refine ⟨page, hself, h.free.subset hpage, fun hin => hout (htab.took.free.subset hin), ?_⟩
      have hfilled := htab.took.mem page hout
      rw [hfilled]
      exact (update_self ..).trans (h.mem _ (hpar.notFree he))
    · obtain ⟨f, hf, hin, hnot, hmem⟩ := h.own (by omega) he' hw'
      refine ⟨f, ?_, hin, fun hin' => hnot (htook.free.subset hin'), ?_⟩
      · rw [hpte w hwv, hf]
      · rw [htook.mem f hnot, hmem]
  · by_cases hwv : w = v <;> by_cases hwv' : w' = v
    · rw [hwv, hwv']
    · rw [hwv, hself] at he1
      rw [hpte w' hwv'] at he2
      cases he1
      exact absurd heq.symm (hnew (by omega) ho' he2)
    · rw [hwv', hself] at he2
      rw [hpte w hwv] at he1
      cases he2
      exact absurd heq (hnew (by omega) ho he1)
    · rw [hpte w hwv] at he1
      rw [hpte w' hwv'] at he2
      exact h.inj (by omega) (by omega) ho ho' he1 he2 heq
  · rw [hpte w (by omega)]
    exact h.none (by omega)
  · have hroom := h.room
    rw [hfree, List.length_cons] at hroom
    dsimp only at hlength
    omega

end Copied

theorem copyRounds_missing (hpar : Copyee par held m0 N) (hw : w < v) (hnone : d.pte w = none)
    (hfree : m.free = []) (hrun : copyRounds par held false n v false d m = .ok (true, d', m')) :
    d'.pte w = none := by
  induction n generalizing v d m with
  | zero =>
    cases hrun
    exact hnone
  | succ n ih =>
    obtain ⟨e, own, he, -, hround⟩ := copyRounds_cases hrun
    cases hround with
    | taken hcons => cases hfree.symm.trans hcons
    | shared ha hpa hmap hrest =>
      rw [hpar.mapped he ha hpa, mappages_page] at hmap
      obtain ⟨-, -, ⟨-, rfl, rfl, -⟩ | ⟨-, d1, htab, rfl⟩⟩ := mapPage_cases hmap
      · exact ih (by omega) hnone hfree hrest
      · obtain ⟨t, ht⟩ := htab.tab
        refine ih (by omega) ?_ (List.suffix_nil.mp (hfree ▸ htab.took.free)) hrest
        rw [Pgdir.pte_setPte ht, update_of_ne (by omega), htab.pte, hnone]

/-- **The loop of `copyuvm`** copies what is left to copy, or there are too few pages and one is
missing. -/
theorem copyRounds_copied (hpar : Copyee par held m0 N) (h : Copied par held m0 v d m)
    (hn : v + n = N) (hrun : copyRounds par held false n v false d m = .ok (true, d', m')) :
    Copied par held m0 N d' m' ∨ m0.free.length < par.copyCount held N ∧
    ∃ w < N, d'.pte w = none := by
  induction n generalizing v d m with
  | zero =>
    cases hrun
    obtain rfl : v = N := hn
    exact .inl h
  | succ n ih =>
    obtain ⟨e, own, he, hown, hround⟩ := copyRounds_cases hrun
    cases hround with
    | shared ha hpa hmap hrest =>
      rw [hpar.mapped he ha hpa, mappages_page] at hmap
      obtain ⟨-, -, ⟨rfl, rfl, rfl, hfree⟩ | ⟨-, d1, htab, rfl⟩⟩ := mapPage_cases hmap
      · -- The page table for the shared page is missing, and so is the page from now on.
        refine .inr ⟨?_, v, by omega, copyRounds_missing hpar (Nat.lt_succ_self v)
          (h.none le_rfl) hfree hrest⟩
        have hroom := h.room
        have hcount := Pgdir.copyCount_succ par held v
        have hmono := Pgdir.copyCount_mono par held (show v + 1 ≤ N by omega)
        have hlast := tablesFor_succ ((h.hasTables _).mp (mapPage_noTable hmap))
        rw [hown, if_neg (by decide)] at hcount
        rw [hfree, List.length_nil] at hroom
        omega
      · exact ih (h.share hpar he hown htab) (by omega) hrest
    | taken hfree hmap hrest =>
      obtain ⟨-, -, ⟨rfl, -⟩ | ⟨rfl, d1, htab, rfl⟩⟩ := mapPage_cases hmap
      · cases hrest
      · exact ih (h.copy hpar he hown hfree htab) (by omega) hrest

/-! ## The whole call -/

theorem mapPage_took {pa perm : ℕ} {ok : Bool} (h : mapPage d m v pa perm = .ok (ok, d', m')) :
    m.Took m' := by
  obtain ⟨-, -, ⟨-, -, rfl, -⟩ | ⟨-, d1, htab, -⟩⟩ := mapPage_cases h
  · exact .refl _
  · exact htab.took

theorem mapRounds_took {pa perm : ℕ} {ok : Bool}
    (h : mapRounds n d m v pa perm = .ok (ok, d', m')) : m.Took m' := by
  induction n generalizing d m v pa with
  | zero =>
    cases h
    exact .refl _
  | succ n ih =>
    obtain ⟨⟨ok1, d1, m1⟩, hmap, hrest⟩ := bind_eq_ok.mp h
    cases ok1 with
    | true => exact (mapPage_took hmap).trans (ih hrest)
    | false =>
      cases hrest
      exact mapPage_took hmap

/-- The loop takes pages, whatever it copies to them. -/
theorem copyRounds_took {cm skip ok : Bool}
    (h : copyRounds par held cm n v skip d m = .ok (ok, d', m')) : m.Took m' := by
  induction n generalizing v skip d m with
  | zero =>
    cases h
    exact .refl _
  | succ n ih =>
    obtain ⟨e, own, -, -, hround⟩ := copyRounds_cases h
    cases hround with
    | passed hrest => exact ih hrest
    | skipped hrest => exact ih hrest
    | noPage => exact .refl _
    | shared _ _ hmap hrest => exact (mapRounds_took hmap).trans (ih hrest)
    | taken hfree hmap hrest =>
      have htake := (Kmem.Took.take hfree (m.mem e.ppn)).trans (mapPage_took hmap)
      split_ifs at hrest
      · exact htake.trans (ih hrest)
      · cases hrest
        exact htake

theorem Kmem.Took.taken (m : Kmem) (n : ℕ) : m.Took (m.taken n) where
  free := List.drop_suffix n m.free
  first := rfl
  mem _ hpage := if_neg fun hmem => hpage (List.mem_of_mem_take hmem)

/-- A directory that `setupkvm` has made. -/
theorem setupkvm_some {shared : List ℕ} (h : setupkvm shared m = .ok (some d, m')) :
    (∃ page kern, d = .bare page kern) ∧ m.Took m' ∧ m.free.length = m'.free.length +
    (NKERNTABLES + 1) := by
  cases hcons : m.free with
  | nil =>
    rw [setupkvm, kalloc, hcons] at h
    cases h
  | cons page free =>
    rw [setupkvm_eq hcons] at h
    split_ifs at h with hlen
    · cases h
      refine ⟨⟨page, _, rfl⟩, .taken m _, ?_⟩
      show _ = (m.free.drop (NKERNTABLES + 1)).length + _
      rw [hcons, List.length_drop, List.length_cons]
      omega
    · obtain ⟨m3, -, h⟩ := bind_eq_ok.mp h
      cases h

/-- A copy that succeeds takes pages and writes to no others. -/
theorem copyuvm_took (h : copyuvm s p par sz = .ok (some d, m)) : s.km.Took m := by
  obtain ⟨⟨d1, m1⟩, hsetup, hrest⟩ := bind_eq_ok.mp h
  rcases d1 with _ | d1
  · cases hrest
  · obtain ⟨⟨ok, d2, m2⟩, hrounds, hlast⟩ := bind_eq_ok.mp hrest
    dsimp only at hlast
    split_ifs at hlast
    · cases hlast
      exact (setupkvm_some hsetup).2.1.trans (copyRounds_took hrounds)
    · obtain ⟨m3, -, hlast⟩ := bind_eq_ok.mp hlast
      cases hlast

/-- The process has an entry in use for the page. -/
def Kernel.holdsPage (s : Kernel) (p : PIdx) (page : ℕ) : Prop :=
  ∃ i g, ((s.proc p).shared_mem i).in_use = true ∧ ((s.proc p).shared_mem i).global_ptr = some g ∧
    (s.shm g).pa = page * PGSIZE

/-- The address spaces that `copyuvm` is for: the pages below `sz` are there, all different and not
free, and the entries in use say where their pages are mapped. -/
structure CopyInput (s : Kernel) (p : PIdx) (par : Pgdir) (sz : ℕ) : Prop where
  name : isCm (s.proc p).name = false
  present : ∀ v < pages sz, ∃ e, par.pte v = some e
  flagged : ∀ {v e}, par.pte v = some e → e.flags ||| PTE_P = e.flags
  distinct : ∀ {v w e e'}, par.pte v = some e → par.pte w = some e' → e.ppn = e'.ppn → v = w
  entry : ∀ i, ((s.proc p).shared_mem i).in_use = true →
    ∃ g e, ((s.proc p).shared_mem i).global_ptr = some g ∧
    ((s.proc p).shared_mem i).va % PGSIZE = 0 ∧ ((s.proc p).shared_mem i).va < sz ∧
    par.pte (((s.proc p).shared_mem i).va / PGSIZE) = some e ∧ (s.shm g).pa = e.ppn * PGSIZE
  sound : par.Sound s.km

/-- The copy of an address space of `sz` bytes. -/
structure CopyExact (s : Kernel) (p : PIdx) (par : Pgdir) (sz : ℕ) (d : Pgdir) (m : Kmem) :
    Prop where
  shared : ∀ v e, v < pages sz → par.pte v = some e → s.holdsPage p e.ppn → d.pte v = some e
  own : ∀ v e, v < pages sz → par.pte v = some e → ¬ s.holdsPage p e.ppn →
    ∃ f, d.pte v = some ⟨f, e.flags⟩ ∧ f ∈ s.km.free ∧ f ∉ m.free ∧
      (∀ w e', par.pte w = some e' → e'.ppn ≠ f) ∧ m.mem f = s.km.mem e.ppn
  distinct : ∀ v w e e' f f', v < pages sz → w < pages sz → par.pte v = some e →
    par.pte w = some e' →
    ¬ s.holdsPage p e.ppn → ¬ s.holdsPage p e'.ppn → d.pte v = some f → d.pte w = some f' →
    f.ppn = f'.ppn → v = w
  none : ∀ v, pages sz ≤ v → d.pte v = none
  memory : ∀ page ∉ s.km.free, m.mem page = s.km.mem page

/-- The pages for which `copyuvm` finds no entry. -/
theorem isOwn_iff (he : par.pte v = some e) :
    par.isOwn (s.heldPages p) v = true ↔ ¬ s.holdsPage p e.ppn := by
  simp only [Pgdir.isOwn, he, Option.any_some, Option.isNone_iff_eq_none,
    List.find?_eq_none, beq_iff_eq]
  constructor
  · rintro hall ⟨i, g, huse, hg, hpa⟩
    refine hall ((s.shm g).pa, ((s.proc p).shared_mem i).va) ?_ hpa
    refine List.mem_filterMap.mpr ⟨i, List.mem_finRange i, ?_⟩
    dsimp only
    rw [if_pos huse, hg]
    rfl
  · intro hnot a ha heq
    obtain ⟨i, -, hi⟩ := List.mem_filterMap.mp ha
    dsimp only at hi
    split_ifs at hi with huse
    obtain ⟨g, hg, rfl⟩ := Option.map_eq_some_iff.mp hi
    exact hnot ⟨i, g, huse, hg, heq⟩

namespace CopyInput

theorem mem_held (h : CopyInput s p par sz) {a : ℕ × ℕ} (ha : a ∈ s.heldPages p) :
    ∃ v e, par.pte v = some e ∧ a.1 = e.ppn * PGSIZE ∧ a.2 = v * PGSIZE := by
  obtain ⟨i, -, hi⟩ := List.mem_filterMap.mp ha
  dsimp only at hi
  split_ifs at hi with huse
  obtain ⟨g, e, hg, halign, -, he, hpa⟩ := h.entry i huse
  rw [hg] at hi
  cases hi
  refine ⟨_, e, he, hpa, ?_⟩
  have := Nat.div_add_mod ((s.proc p).shared_mem i).va PGSIZE
  dsimp only
  rw [halign] at this
  rw [Nat.mul_comm]
  omega

theorem copyee (h : CopyInput s p par sz) (hm : s.km.Took m) :
    Copyee par (s.heldPages p) m (pages sz) where
  present := h.present
  flagged := h.flagged
  notFree he hin := (h.sound.mapped he).2 (hm.free.subset hin)
  nodup := hm.nodup h.sound.nodup
  mapped {v e a} he ha heq := by
    obtain ⟨w, e', he', hpa, hva⟩ := h.mem_held ha
    have hppn : e'.ppn = e.ppn := Nat.eq_of_mul_eq_mul_right (by decide : 0 < PGSIZE)
      (hpa.symm.trans heq)
    rw [hva, h.distinct he' he hppn]

end CopyInput

/-- A copy that is complete is exact. -/
theorem Copied.exact (h : CopyInput s p par sz) (hm : s.km.Took m0)
    (hc : Copied par (s.heldPages p) m0 (pages sz) d m) : CopyExact s p par sz d m where
  shared v e hv he hheld := by
    refine hc.shared hv he ?_
    rw [← Bool.not_eq_true, isOwn_iff he]
    exact fun hnot => hnot hheld
  own v e hv he hheld := by
    obtain ⟨f, hf, hin, hout, hmem⟩ := hc.own hv he ((isOwn_iff he).mpr hheld)
    have hfree := hm.free.subset hin
    refine ⟨f, hf, hfree, hout, fun w e' he' heq => ?_, ?_⟩
    · exact (h.sound.mapped he').2 (heq ▸ hfree)
    · rw [hmem, hm.mem _ (h.sound.mapped he).2]
  distinct v w e e' f f' hv hw he he' hheld hheld' hf hf' heq :=
    hc.inj hv hw ((isOwn_iff he).mpr hheld) ((isOwn_iff he').mpr hheld') hf hf' heq
  none _ hv := hc.none hv
  memory page hpage := (hm.trans hc.toTook).mem page hpage

/-- **`copyuvm` copies the image** when there are free pages for the copied pages, their page tables
and the page tables of the shared pages, and only then. -/
theorem copyuvm_exact_iff (h : CopyInput s p par sz) (hrun : copyuvm s p par sz = .ok (some d, m)) :
    CopyExact s p par sz d m ↔
      NKERNTABLES + 1 + par.copyCount (s.heldPages p) (pages sz) ≤ s.km.free.length := by
  obtain ⟨⟨d0, m0⟩, hsetup, hrun⟩ := bind_eq_ok.mp hrun
  rcases d0 with _ | d0
  · cases hrun
  obtain ⟨⟨page, kern, hbare⟩, htook, hlength⟩ := setupkvm_some hsetup
  dsimp only at hrun
  rw [h.name] at hrun
  obtain ⟨⟨ok, d1, m1⟩, hcopy, hrun⟩ := bind_eq_ok.mp hrun
  dsimp only at hrun
  split_ifs at hrun with hok
  · cases hrun
    rw [hok] at hcopy
    obtain hc | ⟨hshort, w, hw, hnone⟩ :=
      copyRounds_copied (h.copyee htook) (.start hbare m0) (Nat.zero_add _) hcopy
    · have hroom := hc.room
      exact iff_of_true (hc.exact h htook) (by omega)
    · refine iff_of_false (fun hexact => ?_) (by omega)
      -- The missing page was neither copied nor mapped again.
      obtain ⟨e, he⟩ := h.present w hw
      by_cases hheld : s.holdsPage p e.ppn
      · cases hnone.symm.trans (hexact.shared w e hw he hheld)
      · obtain ⟨f, hf, -⟩ := hexact.own w e hw he hheld
        cases hnone.symm.trans hf
  · obtain ⟨m2, -, hrun⟩ := bind_eq_ok.mp hrun
    cases hrun

theorem onePage_copyInput (shared : Bool) {n : ℕ} (hn : n ≤ 100) :
    CopyInput (.onePage shared n) 0 (.single 3) PGSIZE where
  name := show isCm [97] = false by decide
  present v hv := by
    obtain rfl : v = 0 := by
      rw [show pages PGSIZE = 1 from rfl] at hv
      omega
    exact ⟨_, rfl⟩
  flagged {v e} he := by
    rw [Pgdir.pte_single] at he
    split_ifs at he
    cases he
    decide
  distinct {v w e e'} he he' _ := by
    rw [Pgdir.pte_single] at he he'
    split_ifs at he he' with hv hw
    rw [hv, hw]
  entry i _ := by
    have hva : (((Kernel.onePage shared n).proc 0).shared_mem i).va = 0 := rfl
    refine ⟨0, .user 3, rfl, ?_⟩
    rw [hva, Pte.user_ppn]
    exact ⟨rfl, by decide, rfl, rfl⟩
  sound := single_sound shared hn

theorem exists_copy {shared : Bool} {n : ℕ}
    (h : (copyuvm (.onePage shared n) 0 (.single 3) PGSIZE).toOption.any
      (fun r => r.1.isSome) = true) :
    ∃ d m, copyuvm (.onePage shared n) 0 (.single 3) PGSIZE = .ok (some d, m) := by
  obtain ⟨⟨r, m⟩, hrun, hsome⟩ := (Option.any_eq_true _ _).mp h
  obtain ⟨d, rfl⟩ := Option.isSome_iff_exists.mp hsome
  exact ⟨d, m, toOption_eq_some.mp hrun⟩

set_option maxRecDepth 100000 in
/-- One page is copied: 64 page tables and the directory, one page table and the page. A shared page
is mapped, and needs no page of its own. -/
theorem copyuvm_exact_onePage :
    (∃ d m, copyuvm (.onePage false 67) 0 (.single 3) PGSIZE = .ok (some d, m) ∧
      CopyExact (.onePage false 67) 0 (.single 3) PGSIZE d m) ∧
    ∃ d m, copyuvm (.onePage true 66) 0 (.single 3) PGSIZE = .ok (some d, m) ∧
      CopyExact (.onePage true 66) 0 (.single 3) PGSIZE d m := by
  obtain ⟨d, m, hrun⟩ : ∃ d m, copyuvm (.onePage false 67) 0 (.single 3) PGSIZE = .ok (some d, m) :=
    exists_copy (by decide +kernel)
  obtain ⟨d', m', hrun'⟩ : ∃ d m, copyuvm (.onePage true 66) 0 (.single 3) PGSIZE =
      .ok (some d, m) :=
    exists_copy (by decide +kernel)
  exact ⟨⟨d, m, hrun, (copyuvm_exact_iff (onePage_copyInput false (by decide)) hrun).mpr
    (by decide +kernel)⟩,
    d', m', hrun', (copyuvm_exact_iff (onePage_copyInput true (by decide)) hrun').mpr
    (by decide +kernel)⟩

set_option maxRecDepth 100000 in
/-- With 65 free pages there is none for the page table of a shared page, and the copy is empty. -/
theorem copyuvm_without_shared_page : ∃ d m, CopyInput (.onePage true 65) 0 (.single 3) PGSIZE ∧
    copyuvm (.onePage true 65) 0 (.single 3) PGSIZE = .ok (some d, m) ∧ d.pte 0 = none ∧
    ¬ CopyExact (.onePage true 65) 0 (.single 3) PGSIZE d m := by
  have hempty : (copyuvm (.onePage true 65) 0 (.single 3) PGSIZE).toOption.any
      (fun r => r.1.any fun d => (d.pte 0).isNone) = true := by
    decide +kernel
  obtain ⟨⟨r, m⟩, hrun, hd⟩ := (Option.any_eq_true _ _).mp hempty
  obtain ⟨d, rfl, hnone⟩ := (Option.any_eq_true _ _).mp hd
  have hnone' : d.pte 0 = none := Option.isNone_iff_eq_none.mp hnone
  refine ⟨d, m, onePage_copyInput true (by decide), toOption_eq_some.mp hrun, hnone',
    fun hexact => ?_⟩
  have hmapped := hexact.shared 0 (.user 3) (by decide) rfl ⟨0, 0, rfl, rfl, by decide⟩
  cases hnone'.symm.trans hmapped

end Dockv6
