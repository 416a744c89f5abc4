import Dockv6.Vm.Phys
import Dockv6.Vm.Shape

/-!
# What the functions on page tables do, exactly

`deallocuvm` frees the pages that are mapped in its range and changes no other entry. `allocuvm`
maps pages from the free list, cleared, and on failure gives back what it has mapped. Both return.
-/

namespace Dockv6

open Function

variable {d d' : Pgdir} {m m' : Kmem} {v w lo hi n page oldsz newsz : ℕ} {e e' : Pte}

/-! ## Release -/

/-- The memory after the pages of `l` have been freed, one after another. -/
def Kmem.freed (m : Kmem) : List ℕ → Kmem
  | [] => m
  | page :: l =>
    Kmem.freed { m with free := page :: m.free, mem := update m.mem page (freedPage m.free) } l

namespace Kmem

theorem freed_kfree {l : List ℕ} (h : kfree m page = .ok m') :
    m'.freed l = m.freed (page :: l) := by
  obtain ⟨-, -, rfl⟩ := kfree_eq_ok h
  rfl

theorem freed_append (m : Kmem) (l l' : List ℕ) : m.freed (l ++ l') = (m.freed l).freed l' := by
  induction l generalizing m with
  | nil => rfl
  | cons page l ih => exact ih _

theorem freed_first (m : Kmem) (l : List ℕ) : (m.freed l).first = m.first := by
  induction l generalizing m with
  | nil => rfl
  | cons page l ih => exact ih _

theorem freed_free (m : Kmem) (l : List ℕ) : (m.freed l).free = l.reverse ++ m.free := by
  induction l generalizing m with
  | nil => rfl
  | cons page l ih => rw [freed, ih, List.reverse_cons, List.append_assoc, List.singleton_append]

theorem freed_mem {l : List ℕ} (h : page ∉ l) : (m.freed l).mem page = m.mem page := by
  induction l generalizing m with
  | nil => rfl
  | cons f l ih =>
    obtain ⟨hne, hl⟩ := not_or.mp (mt List.mem_cons.mpr h)
    rw [freed, ih hl]
    exact update_of_ne hne _ _

/-- A page that is freed keeps what its last release has written. -/
theorem freed_mem_last {l l' : List ℕ} (h : page ∉ l') :
    (m.freed (l ++ page :: l')).mem page = freedPage (l.reverse ++ m.free) := by
  rw [freed_append, freed, freed_mem h, ← freed_free]
  exact update_self ..

end Kmem

theorem kfree_returns (h : m.isPage page) : ∃ m', kfree m page = .ok m' ∧ m'.first = m.first := by
  refine ⟨_, if_neg ?_, rfl⟩
  unfold Kmem.isPage at h
  omega

/-- The pages that are mapped from the page number `v` to `hi`. -/
def Pgdir.frames (d : Pgdir) (v hi : ℕ) : List ℕ :=
  (List.range' v (hi - v)).filterMap fun w => (d.pte w).map Pte.ppn

theorem Pgdir.mem_frames : page ∈ d.frames v hi ↔ ∃ w e, v ≤ w ∧ w < hi ∧ d.pte w = some e ∧
    e.ppn = page := by
  simp only [frames, List.mem_filterMap, List.mem_range'_1, Option.map_eq_some_iff]
  constructor
  · rintro ⟨w, ⟨hv, hw⟩, e, he, rfl⟩
    exact ⟨w, e, hv, by omega, he, rfl⟩
  · rintro ⟨w, e, hv, hw, he, rfl⟩
    exact ⟨w, ⟨hv, by omega⟩, e, he, rfl⟩

theorem Pgdir.frames_eq_nil (h : ∀ w, v ≤ w → w < hi → d.pte w = none) : d.frames v hi = [] := by
  refine List.eq_nil_iff_forall_not_mem.mpr fun page hpage => ?_
  obtain ⟨w, e, hv, hw, he, -⟩ := mem_frames.mp hpage
  rw [h w hv hw] at he
  cases he

theorem Pgdir.frames_append (hlo : lo ≤ v) (hv : v ≤ hi) :
    d.frames lo hi = d.frames lo v ++ d.frames v hi := by
  have hrange : List.range' lo (hi - lo) = List.range' lo (v - lo) ++ List.range' v (hi - v) := by
    rw [show hi - lo = (v - lo) + (hi - v) by omega, ← List.range'_append_1,
      show lo + (v - lo) = v by omega]
  rw [frames, hrange, List.filterMap_append, frames, frames]

/-- Nothing is mapped up to `w`. -/
theorem Pgdir.frames_skip (hvw : v ≤ w) (h : ∀ u, v ≤ u → u < w → d.pte u = none) :
    d.frames v hi = d.frames w hi := by
  by_cases hw : w ≤ hi
  · rw [frames_append hvw hw, frames_eq_nil h, List.nil_append]
  · rw [frames_eq_nil fun u hu hu' => h u hu (by omega), frames_eq_nil fun u hu hu' => by omega]

theorem Pgdir.frames_cons (hv : v < hi) (he : d.pte v = some e) :
    d.frames v hi = e.ppn :: d.frames (v + 1) hi := by
  rw [frames_append (Nat.le_succ v) hv]
  simp [frames, he]

/-- No page from `v` to `hi` is mapped any more, and the other entries are the same. -/
def Pgdir.Cleared (d : Pgdir) (v hi : ℕ) (d' : Pgdir) : Prop :=
  ∀ w, d'.pte w = if v ≤ w ∧ w < hi then none else d.pte w

theorem Pgdir.frames_congr (h : ∀ u, v ≤ u → u < hi → d'.pte u = d.pte u) :
    d'.frames v hi = d.frames v hi := by
  refine List.filterMap_congr fun u hu => ?_
  obtain ⟨hv, hu⟩ := List.mem_range'_1.mp hu
  rw [h u hv (by omega)]

/-- A missing page table says that nothing is mapped up to the next one. -/
theorem Pgdir.pte_none_of_tab (h : d.tab (v / NPTENTRIES) = none) (hv : v ≤ w)
    (hw : w < (v / NPTENTRIES + 1) * NPTENTRIES) : d.pte w = none := by
  refine pte_of_tab_none ?_
  have hsame : w / NPTENTRIES = v / NPTENTRIES := by
    unfold NPTENTRIES at *
    omega
  rw [hsame, h]

/-- **The loop of `deallocuvm`.** -/
theorem deallocRounds_returns (hpage : ∀ w e, v ≤ w → w < hi → d.pte w = some e → m.isPage e.ppn)
    (hfirst : 0 < m.first) (hn : hi ≤ v + n) :
    Yields (deallocRounds n d m v hi) fun (d', m') => d.Cleared v hi d' ∧
    m' = m.freed (d.frames v hi) := by
  induction n generalizing d m v with
  | zero =>
    refine .pure ⟨fun w => ?_, ?_⟩
    · rw [if_neg (by omega)]
    · rw [Pgdir.frames_eq_nil fun u _ _ => by omega, Kmem.freed]
  | succ n ih =>
    rw [deallocRounds]
    refine .ite (fun hv => ?_) fun hv => ?_
    · -- Skip to `u`, with nothing mapped on the way.
      have hskip : ∀ u, v < u → (∀ x, v ≤ x → x < u → d.pte x = none) →
          Yields (deallocRounds n d m u hi) fun (d', m') =>
            d.Cleared v hi d' ∧ m' = m.freed (d.frames v hi) := by
        intro u hu hnone
        refine (ih (fun w e hw => hpage w e (by omega)) hfirst (by omega)).imp ?_
        rintro ⟨d', m'⟩ ⟨hd', hm'⟩
        refine ⟨fun w => ?_, ?_⟩
        · rw [hd' w]
          split_ifs with h1 h2 h2
          · rfl
          · omega
          · exact hnone w h2.1 (by omega)
          · rfl
        · rw [hm', Pgdir.frames_skip hu.le hnone]
      split
      · rename_i htab
        refine hskip _ ?_ fun x hx hx' => Pgdir.pte_none_of_tab htab hx hx'
        unfold NPTENTRIES
        omega
      · rename_i t ht
        split
        · rename_i he
          refine hskip _ (Nat.lt_succ_self v) fun x hx hx' => ?_
          obtain rfl : x = v := by omega
          exact (Pgdir.pte_of_tab ht).trans he
        · rename_i e he
          have hpte : d.pte v = some e := (Pgdir.pte_of_tab ht).trans he
          have hisPage := hpage v e le_rfl hv hpte
          have hne : e.ppn ≠ 0 := by
            have := hisPage.1
            omega
          obtain ⟨m1, hfree, hfirst1⟩ := kfree_returns hisPage
          rw [if_neg hne, hfree]
          have hcleared : ∀ u, u ≠ v → (d.setPte v none).pte u = d.pte u := fun u hu => by
            rw [Pgdir.pte_setPte_none, update_of_ne hu]
          refine (ih (fun w e' hw hw' he' => ?_) (hfirst1 ▸ hfirst) (by omega)).imp ?_
          · rw [hcleared w (by omega)] at he'
            have := hpage w e' (by omega) hw' he'
            unfold Kmem.isPage at *
            rwa [hfirst1]
          rintro ⟨d', m'⟩ ⟨hd', hm'⟩
          refine ⟨fun w => ?_, ?_⟩
          · rw [hd' w]
            by_cases hw : w = v
            · subst hw
              rw [Pgdir.pte_setPte_none, update_self, ite_self, if_pos ⟨le_rfl, hv⟩]
            · rw [hcleared w hw]
              split_ifs with h1 h2 h2 <;> first | rfl | omega
          · rw [hm', Kmem.freed_kfree hfree, Pgdir.frames_cons hv hpte,
              Pgdir.frames_congr fun u hu _ => hcleared u (by omega)]
    · refine .pure ⟨fun w => ?_, ?_⟩
      · rw [if_neg (by omega)]
      · rw [Pgdir.frames_eq_nil fun u _ _ => by omega, Kmem.freed]

/-- **`deallocuvm`** frees what is mapped from the new end to the old one. -/
theorem deallocuvm_returns
    (hpage : ∀ w e, pages newsz ≤ w → w < pages oldsz → d.pte w = some e → m.isPage e.ppn)
    (hfirst : 0 < m.first) (hlt : newsz < oldsz) :
    Yields (deallocuvm d m oldsz newsz) fun (r, d', m') => r = newsz ∧
      d.Cleared (pages newsz) (pages oldsz) d' ∧
      m' = m.freed (d.frames (pages newsz) (pages oldsz)) := by
  unfold deallocuvm
  rw [if_neg (by omega)]
  exact (deallocRounds_returns hpage hfirst (by omega)).bind fun (d', m') hd' => .pure ⟨rfl, hd'⟩

/-! ## Allocation -/

/-- The entry for a page of a process. -/
abbrev Pte.user (page : ℕ) : Pte := .make (page * PGSIZE) (PTE_W ||| PTE_U)

theorem Pte.user_ppn (page : ℕ) : (Pte.user page).ppn = page := Nat.mul_div_cancel page (by decide)

/-- Pages have been taken from the free list, and no others have been written to. -/
structure Kmem.Took (m0 m : Kmem) : Prop where
  free : m.free <:+ m0.free
  first : m.first = m0.first
  mem : ∀ page ∉ m0.free, m.mem page = m0.mem page

namespace Kmem.Took

variable {m0 m1 : Kmem} {free : List ℕ}

theorem refl (m : Kmem) : m.Took m := ⟨List.suffix_rfl, rfl, fun _ _ => rfl⟩

theorem trans (h : m0.Took m1) (h' : m1.Took m) : m0.Took m where
  free := h'.free.trans h.free
  first := h'.first.trans h.first
  mem page hpage := (h'.mem page fun hin => hpage (h.free.subset hin)).trans (h.mem page hpage)

/-- The first free page is taken and written to. -/
theorem take (hfree : m.free = page :: free) (x : ℕ → UInt8) :
    m.Took { m with free := free, mem := update m.mem page x } where
  free := hfree ▸ List.suffix_cons page free
  first := rfl
  mem f hf := by
    have hne : f ≠ page := by
      rintro rfl
      exact hf (hfree ▸ List.mem_cons_self)
    exact update_of_ne hne _ _

theorem nodup (h : m0.Took m) (hnodup : m0.free.Nodup) : m.free.Nodup :=
  hnodup.sublist h.free.sublist

end Kmem.Took

/-- From `d0` and `m0` the pages from `lo` to `v` have been mapped to pages of the free list, and
cleared. -/
structure Grown (d0 : Pgdir) (m0 : Kmem) (lo v : ℕ) (d : Pgdir) (m : Kmem) :
    Prop extends m0.Took m where
  old : ∀ w, w < lo ∨ v ≤ w → d.pte w = d0.pte w
  new : ∀ w, lo ≤ w → w < v → ∃ page, d.pte w = some (.user page) ∧ page ∈ m0.free ∧ page ∉ m.free ∧
    m.mem page = fun _ => 0
  inj : ∀ {w w' e e'}, lo ≤ w → w < v → lo ≤ w' → w' < v → d.pte w = some e → d.pte w' = some e' →
    e.ppn = e'.ppn → w = w'

namespace Grown

variable {d0 : Pgdir} {m0 m1 : Kmem} {d1 : Pgdir} {free : List ℕ}

theorem start (d : Pgdir) (m : Kmem) (lo : ℕ) : Grown d m lo lo d m where
  toTook := .refl m
  old _ _ := rfl
  new w hw hw' := by omega
  inj hw hw' := by omega

/-- A page is taken from the free list and cleared, for whatever use. -/
theorem take (h : Grown d0 m0 lo v d m) (hfree : m.free = page :: free) :
    Grown d0 m0 lo v d (Kmem.zero { m with free := free } page) := by
  have htook := Kmem.Took.take hfree fun _ => 0
  refine ⟨h.toTook.trans htook, h.old, fun w hw hw' => ?_, h.inj⟩
  obtain ⟨f, hpte, hf, hout, hzero⟩ := h.new w hw hw'
  exact ⟨f, hpte, hf, fun hin => hout (htook.free.subset hin), (htook.mem f hout).trans hzero⟩

theorem of_pte (h : Grown d0 m0 lo v d m) (hpte : d'.pte = d.pte) : Grown d0 m0 lo v d' m :=
  ⟨h.toTook, fun w hw => by rw [hpte, h.old w hw],
    fun w hw hw' => by rw [hpte]; exact h.new w hw hw',
    fun {w w' e e'} hw hw' hu hu' he he' => by
      rw [hpte] at he he'
      exact h.inj hw hw' hu hu' he he'⟩

theorem tabled (h : Grown d0 m0 lo v d m) (htab : Tabled d m w d1 m1) : Grown d0 m0 lo v d1 m1 := by
  cases htab with
  | present => exact h
  | added page free hnone hfree => exact (h.take hfree).of_pte (Pgdir.pte_addTable hnone)

theorem map (h : Grown d0 m0 lo v d m) (hlo : lo ≤ v) (hin : page ∈ m0.free) (hout : page ∉ m.free)
    (hzero : m.mem page = fun _ => 0)
    (hnew : ∀ w e, lo ≤ w → w < v → d.pte w = some e → e.ppn ≠ page)
    (hpte : d'.pte = update d.pte v (some (.user page))) : Grown d0 m0 lo (v + 1) d' m where
  toTook := h.toTook
  old w hw := by
    rw [hpte, update_of_ne (by omega), h.old w (by omega)]
  new w hw hw' := by
    rw [hpte]
    by_cases hv : w = v
    · subst hv
      exact ⟨page, update_self .., hin, hout, hzero⟩
    · rw [update_of_ne hv]
      exact h.new w hw (by omega)
  inj {w w' e e'} hw hw' hu hu' he he' heq := by
    rw [hpte, update_apply] at he he'
    split_ifs at he he' with hv hv' hv'
    · rw [hv, hv']
    · cases he
      rw [Pte.user_ppn] at heq
      exact absurd heq.symm (hnew w' e' hu (by omega) he')
    · cases he'
      rw [Pte.user_ppn] at heq
      exact absurd heq (hnew w e hw (by omega) he)
    · exact h.inj hw (by omega) hu (by omega) he he' heq

end Grown

theorem mapPage_returns {pa perm : ℕ} (hv : v < NUSERPAGES) (hpte : d.pte v = none) :
    ∃ r, mapPage d m v pa perm = .ok r := by
  rw [mapPage, if_neg (by omega), hpte]
  split
  · exact ⟨_, rfl⟩
  · split <;> exact ⟨_, rfl⟩

theorem mapPage_room {pa perm : ℕ} (hv : v < NUSERPAGES) (hpte : d.pte v = none)
    (hroom : d.tab (v / NPTENTRIES) ≠ none ∨ m.free ≠ []) :
    ∃ d' m', mapPage d m v pa perm = .ok (true, d', m') := by
  rw [mapPage, if_neg (by omega), hpte]
  split
  · exact ⟨_, _, rfl⟩
  · rename_i htab
    obtain ⟨page, free, hfree⟩ := List.exists_cons_of_ne_nil (hroom.resolve_left (absurd htab))
    simp [kalloc, hfree]

/-- What `allocuvm` leaves when there is not enough memory. -/
structure Undone (d0 : Pgdir) (m0 : Kmem) (d : Pgdir) (m : Kmem) : Prop where
  pte : d.pte = d0.pte
  first : m.first = m0.first
  mem : ∀ page ∉ m0.free, m.mem page = m0.mem page

/-- What has been mapped is unmapped again. -/
theorem Grown.undo {d0 : Pgdir} {m0 : Kmem} (h : Grown d0 m0 (pages oldsz) v d m)
    (hv : v < pages newsz) (hv' : pages oldsz ≤ v)
    (hnone : ∀ w, pages oldsz ≤ w → w < pages newsz → d0.pte w = none)
    (hrange : ∀ f ∈ m0.free, m0.isPage f) (hfirst : 0 < m0.first) :
    Yields (deallocuvm d m newsz oldsz) fun (_, d', m') => Undone d0 m0 d' m' := by
  have hframe : ∀ w e, pages oldsz ≤ w → w < pages newsz → d.pte w = some e → e.ppn ∈ m0.free := by
    intro w e hw hw' he
    by_cases hwv : w < v
    · obtain ⟨page, hpte, hin, -⟩ := h.new w hw hwv
      obtain rfl : e = .user page := Option.some.inj (he.symm.trans hpte)
      rwa [Pte.user_ppn]
    · rw [h.old w (by omega), hnone w hw hw'] at he
      cases he
  have hlt : oldsz < newsz := by
    by_contra hle
    have := pages_mono (Nat.le_of_not_lt hle)
    omega
  have hpage : ∀ w e, pages oldsz ≤ w → w < pages newsz → d.pte w = some e → m.isPage e.ppn := by
    intro w e hw hw' he
    have := hrange _ (hframe w e hw hw' he)
    unfold Kmem.isPage at *
    rwa [h.first]
  refine (deallocuvm_returns hpage (h.first ▸ hfirst) hlt).imp fun (r, d', m') ⟨_, hd', hm'⟩ =>
    ⟨?_, ?_, fun f hf => ?_⟩
  · funext w
    rw [hd' w]
    split_ifs with hw
    · exact (hnone w hw.1 hw.2).symm
    · exact h.old w (by omega)
  · rw [hm', Kmem.freed_first, h.first]
  · have hfree : f ∉ d.frames (pages oldsz) (pages newsz) := by
      intro hmem
      obtain ⟨w, e, hw, hw', he, rfl⟩ := Pgdir.mem_frames.mp hmem
      exact hf (hframe w e hw hw' he)
    rw [hm', Kmem.freed_mem hfree, h.mem f hf]

/-- **The loop of `allocuvm`.** -/
theorem allocRounds_returns {d0 : Pgdir} {m0 : Kmem} (h : Grown d0 m0 (pages oldsz) v d m)
    (hlo : pages oldsz ≤ v) (hn : v + n = pages newsz) (hsz : pages newsz ≤ NUSERPAGES)
    (hnone : ∀ w, pages oldsz ≤ w → w < pages newsz → d0.pte w = none) (hnodup : m0.free.Nodup)
    (hrange : ∀ f ∈ m0.free, m0.isPage f) (hfirst : 0 < m0.first) :
    Yields (allocRounds n d m v oldsz newsz) fun (r, d', m') =>
      r = newsz ∧ Grown d0 m0 (pages oldsz) (pages newsz) d' m' ∨ r = 0 ∧ Undone d0 m0 d' m' := by
  induction n generalizing d m v with
  | zero =>
    obtain rfl : v = pages newsz := hn
    exact .pure (.inl ⟨rfl, h⟩)
  | succ n ih =>
    rw [allocRounds]
    split
    · refine (h.undo (by omega) hlo hnone hrange hfirst).bind ?_
      rintro ⟨r, d', m'⟩ hd'
      exact .pure (.inr ⟨rfl, hd'⟩)
    · rename_i page m1 hk
      obtain ⟨hfree, hm1⟩ := kalloc_eq_some hk
      rw [mappages_page]
      have h1 : Grown d0 m0 (pages oldsz) v d (m1.zero page) := by
        rw [hm1]
        exact h.take hfree
      have hin : page ∈ m0.free := h.free.subset (hfree ▸ List.mem_cons_self)
      have hout : page ∉ m1.free := by
        have hnodup' : (page :: m1.free).Nodup := hfree ▸ hnodup.sublist h.free.sublist
        exact (List.nodup_cons.mp hnodup').1
      have hpte : d.pte v = none := (h.old v (.inr le_rfl)).trans (hnone v hlo (by omega))
      obtain ⟨⟨ok, d2, m2⟩, hmap⟩ :
          ∃ r, mapPage d (m1.zero page) v (page * PGSIZE) (PTE_W ||| PTE_U) = .ok r :=
        mapPage_returns (by omega) hpte
      rw [hmap]
      obtain ⟨-, -, ⟨rfl, rfl, rfl, -⟩ | ⟨rfl, d3, htabled, rfl⟩⟩ := mapPage_cases hmap
      · -- There is no page for the page table.
        refine (h1.undo (by omega) hlo hnone hrange hfirst).bind ?_
        rintro ⟨r, d', m'⟩ hd'
        have hisPage : m'.isPage page := by
          have := hrange page hin
          unfold Kmem.isPage at *
          rwa [hd'.first]
        obtain ⟨m'', hkfree, hfirst'⟩ := kfree_returns hisPage
        dsimp only
        rw [hkfree]
        refine .pure (.inr ⟨rfl, hd'.pte, hfirst'.trans hd'.first, fun f hf => ?_⟩)
        obtain ⟨-, -, rfl⟩ := kfree_eq_ok hkfree
        have hne : f ≠ page := fun heq => hf (heq ▸ hin)
        exact (update_of_ne hne _ _).trans (hd'.mem f hf)
      · refine ih ?_ (by omega) (by omega)
        obtain ⟨t, ht⟩ := htabled.tab
        have hkeep : page ∉ m2.free ∧ m2.mem page = fun _ => 0 := by
          cases htabled with
          | present => exact ⟨hout, update_self ..⟩
          | added page' free' hnotab hfree' =>
            have hne : page ≠ page' := by
              rintro rfl
              exact hout (hfree' ▸ List.mem_cons_self)
            refine ⟨fun hin' => hout ?_, ?_⟩
            · show page ∈ (m1.zero page).free
              rw [hfree']
              exact List.mem_cons_of_mem _ hin'
            · exact (update_of_ne hne _ _).trans (update_self ..)
        refine (h1.tabled htabled).map hlo hin hkeep.1 hkeep.2 (fun w e hw hw' he heq => ?_) ?_
        · -- The pages mapped before were not free any more when this one was taken.
          rw [htabled.pte] at he
          obtain ⟨f, hpte', -, hnotfree, -⟩ := h.new w hw hw'
          obtain rfl : e = .user f := Option.some.inj (he.symm.trans hpte')
          rw [Pte.user_ppn] at heq
          exact hnotfree (heq ▸ hfree ▸ List.mem_cons_self)
        · rw [Pgdir.pte_setPte ht]

end Dockv6
