import Dockv6.Kernel.Fork
import Dockv6.Vm.Copy

/-!
# When there is room for a copy

How many free pages a `fork` needs: a page table for a shared page is not looked for again, so that
what counts are the pages up to the last one that is the process's own (`copyuvm_some_iff`).
-/

namespace Dockv6

open Kernel

variable {s s' : Kernel} {p : PIdx} {par d d' : Pgdir} {held : List (ℕ × ℕ)} {m m' : Kmem}
  {v n N total : ℕ} {ok : Bool}

/-! ## The pages that count -/

namespace Pgdir

/-- The pages up to the last one that no entry of `held` is for. -/
def lastOwn (par : Pgdir) (held : List (ℕ × ℕ)) : ℕ → ℕ
  | 0 => 0
  | v + 1 => if par.isOwn held v then v + 1 else par.lastOwn held v

/-- The pages before the first one that an entry of `held` is for. -/
def ownPrefix (par : Pgdir) (held : List (ℕ × ℕ)) : ℕ → ℕ
  | 0 => 0
  | v + 1 => if par.ownPrefix held v = v ∧ par.isOwn held v then v + 1 else par.ownPrefix held v

/-- The free pages that the copy of the first `v` pages needs. -/
def copyNeed (par : Pgdir) (held : List (ℕ × ℕ)) (cm : Bool) (v : ℕ) : ℕ :=
  par.copyCount held (if cm then par.ownPrefix held v else par.lastOwn held v)

theorem lastOwn_le (par : Pgdir) (held : List (ℕ × ℕ)) (v : ℕ) : par.lastOwn held v ≤ v := by
  induction v with
  | zero => exact le_rfl
  | succ v ih =>
    rw [lastOwn]
    split_ifs
    · exact le_rfl
    · omega

theorem lt_lastOwn (hown : par.isOwn held v = true) (hv : v < N) : v < par.lastOwn held N := by
  induction N with
  | zero => omega
  | succ N ih =>
    rw [lastOwn]
    split_ifs with hN
    · exact hv
    · have hne : v ≠ N := by
        rintro rfl
        exact hN hown
      exact ih (by omega)

/-- There is no such page from `v` on. -/
theorem lastOwn_of_shared (h : ∀ w, v ≤ w → w < N → par.isOwn held w = false) (hv : v ≤ N) :
    par.lastOwn held N ≤ v := by
  induction N with
  | zero => exact lastOwn_le par held 0 |>.trans (Nat.zero_le v)
  | succ N ih =>
    rw [lastOwn]
    obtain rfl | hlt := hv.eq_or_lt
    · split_ifs
      · exact le_rfl
      · exact (lastOwn_le par held N).trans (Nat.le_succ N)
    · rw [h N (by omega) (by omega), if_neg (by decide)]
      exact ih (fun w hw hw' => h w hw (by omega)) (by omega)

theorem ownPrefix_of_own (h : ∀ w < v, par.isOwn held w = true) : par.ownPrefix held v = v := by
  induction v with
  | zero => rfl
  | succ v ih =>
    rw [ownPrefix, if_pos ⟨ih fun w hw => h w (by omega), h v (Nat.lt_succ_self v)⟩]

theorem le_ownPrefix (h : ∀ w < v, par.isOwn held w = true) (hv : v ≤ N) :
    v ≤ par.ownPrefix held N := by
  induction N, hv using Nat.le_induction with
  | base => exact (ownPrefix_of_own h).ge
  | succ N hN ih =>
    rw [ownPrefix]
    split_ifs
    · omega
    · exact ih

theorem ownPrefix_of_shared (h : ∀ w < v, par.isOwn held w = true)
    (hshared : par.isOwn held v = false) (hv : v < N) : par.ownPrefix held N = v := by
  induction N with
  | zero => omega
  | succ N ih =>
    rw [ownPrefix]
    by_cases hvN : v = N
    · rw [← hvN, hshared, if_neg (by simp), ownPrefix_of_own h]
    · have hN := ih (by omega)
      rw [if_neg (by rw [hN]; exact fun hand => hvN hand.1), hN]

end Pgdir

/-! ## The loop -/

/-- An entry of `held` for a page of `par` says where the page is. -/
def EntriesAt (par : Pgdir) (held : List (ℕ × ℕ)) : Prop :=
  ∀ {v e a}, par.pte v = some e → a ∈ held → a.1 = e.ppn * PGSIZE → a.2 = v * PGSIZE

/-- The copy of the first `v` pages has page tables for them, and took what it should from `total`
free pages. -/
structure CopyRoom (par : Pgdir) (held : List (ℕ × ℕ)) (total v : ℕ) (d : Pgdir) (m : Kmem) :
    Prop where
  hasTables : d.HasTables v
  room : total = m.free.length + par.copyCount held v

/-- A round of the loop at a page of the process's own. -/
theorem copyRounds_own {cm : Bool} (h : CopyRoom par held total v d m)
    (hown : par.isOwn held v = true)
    (hrun : copyRounds par held cm (n + 1) v false d m = .ok (ok, d', m')) :
    (ok = false ∧ total < par.copyCount held (v + 1)) ∨
      ∃ d1 m1, CopyRoom par held total (v + 1) d1 m1 ∧ copyRounds par held cm n
      (v + 1) false d1 m1 = .ok (ok, d', m') := by
  have hcount := Pgdir.copyCount_succ par held v
  rw [hown, if_pos rfl] at hcount
  have hroom := h.room
  have htabs : tablesFor v ≤ tablesFor (v + 1) := Nat.div_le_div_right (by omega)
  obtain ⟨e, own, -, hround_own, hround⟩ := copyRounds_cases hrun
  obtain rfl : own = true := hround_own.symm.trans hown
  cases hround with
  | noPage hfree =>
    rw [hfree, List.length_nil] at hroom
    exact .inl ⟨rfl, by omega⟩
  | taken hfree hmap hrest =>
    rw [hfree, List.length_cons] at hroom
    obtain ⟨-, -, ⟨rfl, rfl, rfl, hempty⟩ | ⟨rfl, d1, htab, rfl⟩⟩ := mapPage_cases hmap
    · cases hrest
      have hlast := tablesFor_succ ((h.hasTables _).mp (mapPage_noTable hmap))
      dsimp only at hempty
      rw [hempty, List.length_nil] at hroom
      exact .inl ⟨rfl, by omega⟩
    · obtain ⟨htables, hlength⟩ := htab.hasTables h.hasTables
      dsimp only at hlength
      exact .inr ⟨_, _, ⟨htables.setPte _, by omega⟩, hrest⟩

/-- A round of the loop at a shared page, outside the container manager. The page table may be
missing from now on. -/
theorem copyRounds_shared (hat : EntriesAt par held) (h : CopyRoom par held total v d m)
    (hown : par.isOwn held v = false)
    (hrun : copyRounds par held false (n + 1) v false d m = .ok (ok, d', m')) :
    ∃ d1 m1, copyRounds par held false n (v + 1) false d1 m1 = .ok (ok, d', m') ∧
      (CopyRoom par held total (v + 1) d1 m1 ∨
        (m1.free = [] ∧ total = par.copyCount held v ∧ total < par.copyCount held (v + 1))) := by
  have hcount := Pgdir.copyCount_succ par held v
  rw [hown, if_neg (by decide)] at hcount
  have hroom := h.room
  obtain ⟨e, own, he, hround_own, hround⟩ := copyRounds_cases hrun
  obtain rfl : own = false := hround_own.symm.trans hown
  cases hround with
  | shared ha hpa hmap hrest =>
    rw [hat he ha hpa, mappages_page] at hmap
    refine ⟨_, _, hrest, ?_⟩
    obtain ⟨-, -, ⟨rfl, rfl, rfl, hempty⟩ | ⟨-, d1, htab, rfl⟩⟩ := mapPage_cases hmap
    · have hlast := tablesFor_succ ((h.hasTables _).mp (mapPage_noTable hmap))
      rw [hempty, List.length_nil] at hroom
      exact .inr ⟨hempty, by omega, by omega⟩
    · obtain ⟨htables, hlength⟩ := htab.hasTables h.hasTables
      exact .inl ⟨htables.setPte _, by omega⟩

theorem copyRounds_empty (hat : EntriesAt par held) (hfree : m.free = [])
    (hrun : copyRounds par held false n v false d m = .ok (ok, d', m')) :
    ok = true ↔ ∀ w, v ≤ w → w < v + n → par.isOwn held w = false := by
  induction n generalizing v d m with
  | zero =>
    cases hrun
    exact iff_of_true rfl fun w hw hw' => absurd hw' (by omega)
  | succ n ih =>
    obtain ⟨e, own, he, hown, hround⟩ := copyRounds_cases hrun
    cases hround with
    | noPage =>
      exact iff_of_false nofun fun hall => nomatch hown.symm.trans (hall v le_rfl (by omega))
    | taken hcons => cases hfree.symm.trans hcons
    | shared ha hpa hmap hrest =>
      rw [hat he ha hpa, mappages_page] at hmap
      rw [ih (List.suffix_nil.mp (hfree ▸ (mapPage_took hmap).free)) hrest]
      refine ⟨fun hall w hw hw' => ?_, fun hall w hw hw' => hall w (by omega) (by omega)⟩
      obtain rfl | hlt := hw.eq_or_lt
      · exact hown
      · exact hall w (by omega) (by omega)

/-- The loop outside the container manager. -/
theorem copyRounds_true_iff (hat : EntriesAt par held) (h : CopyRoom par held total v d m)
    (hrun : copyRounds par held false n v false d m = .ok (ok, d', m')) :
    ok = true ↔ par.copyCount held (par.lastOwn held (v + n)) ≤ total := by
  have hmono : ∀ {a b}, a ≤ b → par.copyCount held a ≤ par.copyCount held b :=
    Pgdir.copyCount_mono par held
  induction n generalizing v d m with
  | zero =>
    cases hrun
    have hle := hmono (Pgdir.lastOwn_le par held v)
    have hroom := h.room
    exact iff_of_true rfl (by rw [Nat.add_zero]; omega)
  | succ n ih =>
    rw [show v + (n + 1) = v + 1 + n by omega] at *
    cases hown : par.isOwn held v with
    | true =>
      obtain ⟨rfl, hlt⟩ | ⟨d1, m1, h1, hrest⟩ := copyRounds_own h hown hrun
      · have hle := hmono (show v + 1 ≤ _ from Pgdir.lt_lastOwn hown (show v < v + 1 + n by omega))
        exact iff_of_false nofun (by omega)
      · exact ih h1 hrest
    | false =>
      obtain ⟨d1, m1, hrest, h1 | ⟨hempty, heq, hlt⟩⟩ := copyRounds_shared hat h hown hrun
      · exact ih h1 hrest
      · rw [copyRounds_empty hat hempty hrest]
        constructor
        · intro hall
          have hlast : par.lastOwn held (v + 1 + n) ≤ v := by
            refine Pgdir.lastOwn_of_shared (fun w hw hw' => ?_) (by omega)
            obtain rfl | hlt := hw.eq_or_lt
            · exact hown
            · exact hall w (by omega) (by omega)
          rw [heq]
          exact hmono hlast
        · intro hle w hw hw'
          by_contra hne
          have hlast := hmono (show w + 1 ≤ _ from Pgdir.lt_lastOwn (Bool.of_not_eq_false hne) hw')
          have hstep := hmono (show v + 1 ≤ w + 1 by omega)
          exact absurd hle (by omega)

/-- In the container manager, nothing is copied after a shared page. -/
theorem copyRounds_skip (hrun : copyRounds par held true n v true d m = .ok (ok, d', m')) :
    ok = true := by
  induction n generalizing v with
  | zero =>
    cases hrun
    rfl
  | succ n ih =>
    obtain ⟨e, own, -, -, hround⟩ := copyRounds_cases hrun
    cases hround with
    | passed hrest => exact ih hrest
    | skipped hrest => exact ih hrest

/-- The loop in the container manager. -/
theorem copyRounds_cm_true_iff (h : CopyRoom par held total v d m)
    (hall : ∀ w < v, par.isOwn held w = true)
    (hrun : copyRounds par held true n v false d m = .ok (ok, d', m')) :
    ok = true ↔ par.copyCount held (par.ownPrefix held (v + n)) ≤ total := by
  induction n generalizing v d m with
  | zero =>
    cases hrun
    have hroom := h.room
    exact iff_of_true rfl (by rw [Nat.add_zero, Pgdir.ownPrefix_of_own hall]; omega)
  | succ n ih =>
    rw [show v + (n + 1) = v + 1 + n by omega]
    cases hown : par.isOwn held v with
    | true =>
      have hall' : ∀ w < v + 1, par.isOwn held w = true := fun w hw => by
        obtain rfl | hlt := (Nat.le_of_lt_succ hw).eq_or_lt
        · exact hown
        · exact hall w hlt
      obtain ⟨rfl, hlt⟩ | ⟨d1, m1, h1, hrest⟩ := copyRounds_own h hown hrun
      · have hle := Pgdir.copyCount_mono par held
          (Pgdir.le_ownPrefix hall' (Nat.le_add_right (v + 1) n))
        exact iff_of_false nofun (by omega)
      · exact ih h1 hall' hrest
    | false =>
      have hroom := h.room
      refine iff_of_true ?_ ?_
      · obtain ⟨e, own, -, hround_own, hround⟩ := copyRounds_cases hrun
        obtain rfl : own = false := hround_own.symm.trans hown
        cases hround with
        | passed hrest => exact copyRounds_skip hrest
      · rw [Pgdir.ownPrefix_of_shared hall hown (by omega)]
        omega

/-! ## The whole call -/

/-- **When a copy is made**: there are free pages for a directory and for what is copied. -/
theorem copyuvm_some_iff {r : Option Pgdir} {sz : ℕ}
    (hat : isCm (s.proc p).name = false → EntriesAt par (s.heldPages p))
    (hrun : copyuvm s p par sz = .ok (r, m)) : r ≠ none ↔
      NKERNTABLES + 1 + par.copyNeed (s.heldPages p) (isCm (s.proc p).name) (pages sz) ≤
      s.km.free.length := by
  obtain ⟨⟨d0, m0⟩, hsetup, hrest⟩ := bind_eq_ok.mp hrun
  by_cases hfree : NKERNTABLES + 1 ≤ s.km.free.length
  · obtain ⟨hsome, hlength⟩ := setupkvm_ok hfree hsetup
    obtain ⟨d0, rfl⟩ := Option.ne_none_iff_exists'.mp hsome
    obtain ⟨⟨page, kern, hbare⟩, -, -⟩ := setupkvm_some hsetup
    obtain ⟨⟨ok, d1, m1⟩, hcopy, hlast⟩ := bind_eq_ok.mp hrest
    have hstart : CopyRoom par (s.heldPages p) m0.free.length 0 d0 m0 := by
      refine ⟨fun w => ?_, rfl⟩
      rw [hbare]
      exact iff_of_true rfl (Nat.zero_le _)
    have hok : ok = true ↔
        par.copyNeed (s.heldPages p) (isCm (s.proc p).name) (pages sz) ≤ m0.free.length := by
      unfold Pgdir.copyNeed
      cases hcm : isCm (s.proc p).name with
      | true =>
        rw [hcm] at hcopy
        rw [copyRounds_cm_true_iff hstart (fun w hw => absurd hw (Nat.not_lt_zero w)) hcopy,
          Nat.zero_add, if_pos rfl]
      | false =>
        rw [hcm] at hcopy
        rw [copyRounds_true_iff (hat hcm) hstart hcopy, Nat.zero_add, if_neg (by decide)]
    have hr : r ≠ none ↔ ok = true := by
      cases ok with
      | true =>
        cases hlast
        exact iff_of_true nofun rfl
      | false =>
        obtain ⟨m2, -, hlast⟩ := bind_eq_ok.mp hlast
        cases hlast
        exact iff_of_false (absurd rfl) nofun
    rw [hr, hok]
    omega
  · refine iff_of_false (fun hr => ?_) (by omega)
    rcases d0 with _ | d0
    · cases hrest
      exact hr rfl
    · obtain ⟨-, -, hlength⟩ := setupkvm_some hsetup
      omega

/-- The free pages that a `fork` of the process takes: a kernel stack and a copy of its address
space. -/
def Kernel.forkNeed (s : Kernel) (p : PIdx) (d : Pgdir) : ℕ :=
  NKERNTABLES + 2 + d.copyNeed (s.heldPages p) (isCm (s.proc p).name) (pages (s.proc p).sz)

/-- There is a slot for a child, and there are pages for it. -/
def Kernel.CanFork (s : Kernel) (p : PIdx) (d : Pgdir) : Prop :=
  (∃ q, (s.proc q).state = .UNUSED) ∧ s.forkNeed p d ≤ s.km.free.length

theorem stacked_copy {np : PIdx} {page : ℕ} {free : List ℕ} {q : Pqueue} {mem : Mem}
    {r : Option Pgdir} (hne : p ≠ np)
    (hat : isCm (s.proc p).name = false → EntriesAt d (s.heldPages p))
    (hfree : s.km.free = page :: free)
    (hcopy : copyuvm (s.stacked np page free q mem) p d ((s.stacked np page free q mem).proc p).sz =
      .ok (r, m)) : r ≠ none ↔ s.forkNeed p d ≤ s.km.free.length := by
  have hproc : (s.stacked np page free q mem).proc p = s.proc p := Function.update_of_ne hne _ _
  have hheld : (s.stacked np page free q mem).heldPages p = s.heldPages p := by
    unfold Kernel.heldPages
    rw [hproc]
    rfl
  have hiff := copyuvm_some_iff (by rw [hproc, hheld]; exact hat) hcopy
  rw [hproc, hheld] at hiff
  rw [hiff, hfree, List.length_cons, Kernel.forkNeed, show (s.stacked np page free q mem).km.free =
    free from rfl]
  omega

theorem ForkFailed.not_canFork (h : ForkFailed s p d s') (hp : s.live p)
    (hat : isCm (s.proc p).name = false → EntriesAt d (s.heldPages p)) : ¬ s.CanFork p d := by
  rintro ⟨⟨q, hq⟩, hneed⟩
  cases h with
  | noSlot hlive => exact hlive q hq
  | noStack np _ _ _ hfree =>
    rw [hfree, List.length_nil, Kernel.forkNeed] at hneed
    omega
  | noCopy np page free _ _ _ _ hnp hfree hcopy =>
    have hne : p ≠ np := fun heq => hp (heq ▸ hnp.unused)
    exact (stacked_copy hne hat hfree hcopy).mpr hneed rfl

theorem ForkOk.canFork {np : PIdx} (h : ForkOk s p np d s') (hp : s.live p)
    (hat : isCm (s.proc p).name = false → EntriesAt d (s.heldPages p)) : s.CanFork p d := by
  obtain ⟨hunused, page, free, q, mem, d', m, -, hfree, hcopy, -⟩ := h
  have hne : p ≠ np := fun heq => hp (heq ▸ hunused)
  exact ⟨⟨np, hunused⟩, (stacked_copy hne hat hfree hcopy).mp nofun⟩

theorem Charged.canFork_iff {s1 : Kernel} (h : Charged s p s1) : s1.CanFork p d ↔
    s.CanFork p d := by
  cases h <;> rfl

end Dockv6
