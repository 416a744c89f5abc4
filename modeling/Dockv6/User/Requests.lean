import Dockv6.User.Blocks

/-!
# Requests to the user heap

`morecore` adds a block to the heap, and the loop of `malloc` goes round the list, once before
`morecore` and once behind it; so it returns, and the heap is in order (`Inv.search`,
`Inv.search_total`).
-/

namespace Dockv6.Malloc

open Function

variable {s t : Heap} {L U T : List ℕ} {a p prevp n nu nunits fuel ap : ℕ} {r : Option ℕ} {k : Int}
  {answers : List (Option ℕ)} {res : ℕ × Heap}

/-! ## More memory -/

theorem coreUnits_lt (hnu : nu < 2 ^ 28) : coreUnits nu < 2 ^ 28 := by
  unfold coreUnits
  split_ifs <;> omega

theorem le_coreUnits (nu : ℕ) : nu ≤ coreUnits nu ∧ 4096 ≤ coreUnits nu := by
  unfold coreUnits
  split_ifs <;> omega

theorem coreBytes_eq (hnu : nu < 2 ^ 28) : coreBytes nu = 8 * coreUnits nu := by
  have hlt := coreUnits_lt hnu
  unfold coreBytes toint
  rw [Nat.mod_eq_of_lt (by omega), if_pos (by omega)]
  omega

/-- `sbrk` has returned `a`, and the memory there is one block. -/
def Heap.grown (s : Heap) (nu a : ℕ) : Heap :=
  let s := s.grow (coreBytes nu) a
  { s with size := update s.size a (coreUnits nu) }

theorem Inv.grown (h : Inv s L U) (hnu : nu < 2 ^ 28) (ha : s.mayReturn (coreBytes nu) (some a)) :
    Inv (s.grown nu a) L (a :: U) ∧ (s.grown nu a).size a = coreUnits nu ∧
      (∀ b ∈ U, (s.grown nu a).size b = s.size b) ∧ (s.grown nu a).live = s.live := by
  have hbytes := coreBytes_eq hnu
  have hunits := (le_coreUnits nu).2
  obtain ⟨htop, hend⟩ := ha (by omega)
  have hgrown : s.grown nu a = { s with
      size := update s.size a (coreUnits nu)
      regions := (a, 8 * coreUnits nu) :: s.regions
      top := a + 8 * coreUnits nu } := by
    have hnat : (coreBytes nu).toNat = 8 * coreUnits nu := by omega
    unfold Heap.grown Heap.grow
    rw [if_pos (by omega), hnat]
  have hbelow : ∀ b ∈ L ++ U, b < a := by
    intro b hb
    have hbase := h.base_lt
    by_cases hne : b = s.base
    · omega
    · have hpos := h.pos b hb hne
      have hle := h.block_le hb
      omega
  have hsize : ∀ b ∈ L ++ U, update s.size a (coreUnits nu) b = s.size b := fun b hb =>
    update_of_ne (hbelow b hb).ne _ _
  have hobt : ∀ x, Heap.obtained { s with
      size := update s.size a (coreUnits nu), regions := (a, 8 * coreUnits nu) :: s.regions,
      top := a + 8 * coreUnits nu } x ↔ (a ≤ x ∧ x < a + 8 * coreUnits nu) ∨
      s.obtained x := fun x => by
    simp only [Heap.obtained, List.mem_cons, exists_eq_or_imp]
  rw [hgrown]
  refine ⟨⟨h.base_pos, h.ring, h.head, h.sorted, h.rover, ?_, fun b hb hne => ?_, ?_, fun x => ?_,
    fun x hx => ?_,
    fun x hx => ?_, ?_, ?_⟩, update_self _ _ _, fun b hb => hsize b (List.mem_append_right L hb),
    rfl⟩
  · exact (hsize _ (List.mem_append_left U h.base_mem)).trans h.base_size
  · dsimp only
    by_cases hba : b = a
    · rw [hba, update_self]
      omega
    · have hb' : b ∈ L ++ U := by
        simp only [List.mem_append, List.mem_cons] at hb ⊢
        tauto
      rw [hsize b hb']
      exact h.pos b hb' hne
  · exact fun hmem => (List.mem_cons.mp hmem).elim
      (fun heq => (hbelow _ (List.mem_append_left U h.base_mem)).ne heq) h.used
  · -- A new byte is in the new block only, since all others are below.
    have htiles := h.tiles x
    rw [Heap.cover_append] at htiles
    rw [Heap.cover_append, Heap.cover_cons, Heap.cover_congr fun b hb =>
      hsize b (List.mem_append_left U hb),
      Heap.cover_congr fun b hb => hsize b (List.mem_append_right L hb)]
    dsimp only
    rw [update_self, covers]
    simp only [hobt]
    by_cases hx : s.obtained x
    · have hlt := h.high x hx
      rw [if_pos hx] at htiles
      rw [if_neg (by omega), if_pos (.inr hx)]
      omega
    · rw [if_neg hx] at htiles
      simp only [hx, or_false]
      omega
  · have hbase := h.base_lt
    obtain hx | hx := (hobt x).mp hx
    · dsimp only
      omega
    · exact h.low x hx
  · dsimp only
    obtain hx | hx := (hobt x).mp hx
    · exact hx.2
    · have hlt := h.high x hx
      omega
  · have hbase := h.base_lt
    dsimp only
    omega
  · dsimp only
    omega

/-- What `malloc` may do before it has found a block. -/
structure Grows (s t : Heap) (U : List ℕ) (L' : List ℕ) (nu : ℕ) : Prop where
  inv : Inv t L' U
  used : ∀ a ∈ U, t.size a = s.size a
  live : t.live = s.live
  fits : ∃ a ∈ L', nu ≤ t.size a

theorem header_add (ha : a + 8 < 2 ^ 32) : header (add a 1) = a := by
  unfold header add
  omega

theorem morecore_some (hmay : s.mayReturn (coreBytes nu) (some a)) :
    morecore fuel s nu (some a) = (free fuel (s.grown nu a) (add a 1)).map fun t =>
    (t.freep, t) := by
  unfold morecore Heap.grown
  rw [if_pos hmay]
  dsimp only
  split <;> rename_i hfree <;> rw [hfree] <;> rfl

/-- `morecore` fails and changes nothing, or adds a block to the list. -/
theorem Inv.morecore (h : Inv s L U) (fuel : ℕ) (hnu : nu < 2 ^ 28) :
    (s.mayReturn (coreBytes nu) r → L.length ≤ fuel → ∃ res, morecore fuel s nu r = some res) ∧
    ∀ q t, morecore fuel s nu r = some (q, t) → (q = 0 ∧ t = s) ∨
      (q ≠ 0 ∧ q = t.freep ∧ ∃ L', Grows s t U L' nu) := by
  by_cases hmay : s.mayReturn (coreBytes nu) r
  swap
  · have hnone : Malloc.morecore fuel s nu r = none := if_neg hmay
    rw [hnone]
    exact ⟨fun h => absurd h hmay, nofun⟩
  cases r with
  | none =>
    have hfail : Malloc.morecore fuel s nu none = some (0, s) := if_pos hmay
    rw [hfail]
    refine ⟨fun _ _ => ⟨_, rfl⟩, fun q t ht => ?_⟩
    cases ht
    exact .inl ⟨rfl, rfl⟩
  | some a =>
    obtain ⟨hinv, hsize, hused, hlive⟩ := h.grown hnu hmay
    have hend := hinv.block_le (a := a) mem_used
    have hunits := le_coreUnits nu
    have htop := hinv.top_lt
    obtain ⟨htotal, hfree⟩ := hinv.free fuel (header_add (a := a) (by omega))
    rw [morecore_some hmay]
    refine ⟨fun _ hn => ?_, fun q t ht => ?_⟩
    · obtain ⟨t, ht⟩ := htotal hn
      rw [ht]
      exact ⟨_, rfl⟩
    · obtain ⟨u, hu, heq⟩ := Option.map_eq_some_iff.mp ht
      cases heq
      obtain ⟨⟨-, -, -, hlive'⟩, L', hinv', hused', b, hb, hfit⟩ := hfree _ hu
      have hfreep := hinv'.base_le hinv'.rover
      have hpos := hinv'.base_pos
      refine .inr ⟨by omega, rfl, L', hinv', fun c hc => (hused' c hc).trans (hused c hc),
        hlive'.trans hlive, b, hb, ?_⟩
      omega

theorem free_mono {m : ℕ} (h : free n s ap = some t) (hnm : n ≤ m) : free m s ap = some t := by
  unfold free at h ⊢
  dsimp only at h ⊢
  cases hseek : seek s.ptr (s.place (header ap)) n s.freep with
  | none =>
    rw [hseek] at h
    cases h
  | some p =>
    rw [hseek] at h
    rw [seek_mono hseek hnm]
    exact h

theorem morecore_mono {m : ℕ} (h : morecore n s nu r = some res) (hnm : n ≤ m) :
    morecore m s nu r = some res := by
  unfold morecore at h ⊢
  split_ifs at h ⊢ with hmay
  cases r with
  | none => exact h
  | some a =>
    dsimp only at h ⊢
    split at h
    · cases h
    · rename_i u hu
      rw [free_mono hu hnm]
      exact h

/-! ## The loop of malloc -/

theorem search_fit (h : nunits ≤ s.size p) :
    search fuel nunits (n + 1) s prevp p answers = some (s.take nunits prevp p) := by
  rw [search.eq_def]
  exact if_pos h

theorem search_next (h : ¬ nunits ≤ s.size p) (hne : p ≠ s.freep) :
    search fuel nunits (n + 1) s prevp p answers = search fuel nunits n s p (s.ptr p) answers := by
  rw [search.eq_def]
  exact (if_neg h).trans (if_neg hne)

theorem search_round (h : ¬ nunits ≤ s.size s.freep) :
    search fuel nunits (n + 1) s prevp s.freep answers =
      match answers with
      | [] => none
      | r :: answers =>
        match morecore fuel s nunits r with
        | none => none
        | some (q, s) =>
          if q = 0 then some (0, s) else search fuel nunits n s q (s.ptr q) answers := by
  rw [search.eq_def]
  exact (if_neg h).trans (if_pos rfl)

/-- The way from the block behind `freep` round to `freep`. -/
theorem Inv.round (h : Inv s L U) : ∃ T, Path s.ptr (s.ptr s.freep) T s.freep ∧
    (∀ a, a ∈ T ++ [s.freep] ↔ a ∈ L) ∧ s.freep ∉ T := by
  obtain ⟨A, B, hL⟩ := List.append_of_mem h.rover
  have hring := h.ring
  have hsorted := h.sorted
  rw [hL] at hring hsorted
  obtain ⟨-, hsorted', hcross⟩ := List.pairwise_append.mp hsorted
  refine ⟨B ++ A, hring.rotate.2, fun a => ?_, fun hmem => ?_⟩
  · rw [hL]
    simp only [List.mem_append, List.mem_cons, List.not_mem_nil, or_false]
    tauto
  · obtain hmem | hmem := List.mem_append.mp hmem
    · exact lt_irrefl _ ((List.pairwise_cons.mp hsorted').1 _ hmem)
    · exact lt_irrefl _ (hcross _ hmem _ List.mem_cons_self)

/-- What `malloc` returns: a null pointer, or a pointer behind the header of a new block. -/
inductive Outcome (s : Heap) (U : List ℕ) (nunits : ℕ) : ℕ × Heap → Prop
  | null (t : Heap) (L' : List ℕ) (inv : Inv t L' U) (used : ∀ a ∈ U, t.size a = s.size a)
      (live : t.live = s.live) : Outcome s U nunits (0, t)
  | block (t : Heap) (L' : List ℕ) (c : ℕ) (inv : Inv t L' (c :: U)) (size : t.size c = nunits)
      (used : ∀ a ∈ U, t.size a = s.size a) (live : t.live = s.live) : Outcome s U nunits (c + 8, t)

theorem Outcome.of_grows {L' : List ℕ} (h : Outcome t U nunits res) (hg : Grows s t U L' nu) :
    Outcome s U nunits res := by
  cases h with
  | null u L' inv used live =>
    exact .null u L' inv (fun a ha => (used a ha).trans (hg.used a ha)) (live.trans hg.live)
  | block u L' c inv size used live =>
    exact .block u L' c inv size (fun a ha => (used a ha).trans (hg.used a ha)) (live.trans hg.live)

theorem Inv.outcome_take (h : Inv s L U) (hprev : prevp ∈ L) (hn : 1 ≤ nunits)
    (hfit : nunits ≤ s.size (s.ptr prevp)) :
    Outcome s U nunits (s.take nunits prevp (s.ptr prevp)) := by
  obtain ⟨c, L', hr, hinv, hsize, hused, hlive⟩ := h.take hprev hn hfit
  have heq : s.take nunits prevp (s.ptr prevp) = (c + 8, (s.take nunits prevp (s.ptr prevp)).2) :=
    Prod.ext hr rfl
  rw [heq]
  exact .block _ L' c hinv hsize hused hlive

/-- The blocks from `p` to `freep` are still to be seen; either `sbrk` can be asked for the units,
or one of them is large enough. -/
structure Ahead (s : Heap) (L : List ℕ) (nunits prevp p : ℕ) (T : List ℕ) : Prop where
  prev : prevp ∈ L
  next : s.ptr prevp = p
  path : Path s.ptr p T s.freep
  mem : ∀ a ∈ T, a ∈ L
  notMem : s.freep ∉ T

theorem Ahead.tail (h : Ahead s L nunits prevp p (a :: T)) : p = a ∧ p ≠ s.freep ∧
    Ahead s L nunits p (s.ptr p) T := by
  obtain ⟨rfl, hpath⟩ := h.path
  refine ⟨rfl, fun heq => h.notMem (heq ▸ List.mem_cons_self),
    h.mem p List.mem_cons_self, rfl, hpath,
    fun b hb => h.mem b (List.mem_cons_of_mem p hb), fun hb => h.notMem (List.mem_cons_of_mem p hb)⟩

theorem Inv.ahead (h : Inv s L U) (nunits : ℕ) : ∃ T, Ahead s L nunits s.freep (s.ptr s.freep) T ∧
    ∀ a, a ∈ T ++ [s.freep] ↔ a ∈ L := by
  obtain ⟨T, hpath, hmem, hnot⟩ := h.round
  exact ⟨T, ⟨h.rover, rfl, hpath, fun a ha => (hmem a).mp (List.mem_append_left _ ha), hnot⟩, hmem⟩

/-- **The loop of `malloc` is right.** When it returns, the heap is in order, with a new block if
the pointer is not null. -/
theorem Inv.search (h : Inv s L U) (hn : 1 ≤ nunits) (hahead : Ahead s L nunits prevp p T)
    (hok : nunits < 2 ^ 28 ∨ ∃ a ∈ T ++ [s.freep], nunits ≤ s.size a)
    (hres : search fuel nunits n s prevp p answers = some res) : Outcome s U nunits res := by
  induction n generalizing s L prevp p T answers with
  | zero => cases hres
  | succ n ih =>
    by_cases hfit : nunits ≤ s.size p
    · rw [search_fit hfit] at hres
      cases hres
      obtain rfl := hahead.next
      exact h.outcome_take hahead.prev hn hfit
    cases T with
    | cons a T =>
      obtain ⟨rfl, hne, htail⟩ := hahead.tail
      rw [search_next hfit hne] at hres
      refine ih h htail (hok.imp_right fun ⟨b, hb, hle⟩ => ⟨b, ?_, hle⟩) hres
      obtain rfl | hb := List.mem_cons.mp hb
      · exact absurd hle hfit
      · exact hb
    | nil =>
      -- All blocks have been seen, and none is large enough.
      obtain rfl : p = s.freep := hahead.path
      have hnu : nunits < 2 ^ 28 := by
        refine hok.resolve_right fun ⟨b, hb, hle⟩ => hfit ?_
        rwa [List.mem_singleton.mp hb] at hle
      rw [search_round hfit] at hres
      cases answers with
      | nil => cases hres
      | cons r answers =>
        dsimp only at hres
        cases hmore : Malloc.morecore fuel s nunits r with
        | none =>
          rw [hmore] at hres
          cases hres
        | some qt =>
          obtain ⟨q, t⟩ := qt
          rw [hmore] at hres
          dsimp only at hres
          obtain ⟨rfl, rfl⟩ | ⟨hq, rfl, L', hgrows⟩ := (h.morecore _ hnu).2 q t hmore
          · rw [if_pos rfl] at hres
            cases hres
            exact .null _ L h (fun _ _ => rfl) rfl
          · rw [if_neg hq] at hres
            obtain ⟨T', hahead', -⟩ := hgrows.inv.ahead nunits
            exact (ih hgrows.inv hahead' (.inl hnu) hres).of_grows hgrows

/-- With a block that is large enough the loop ends within one round. -/
theorem Ahead.found (h : Ahead s L nunits prevp p T)
    (hfit : ∃ a ∈ T ++ [s.freep], nunits ≤ s.size a)
    (hlen : T.length < n) : ∃ res, Malloc.search fuel nunits n s prevp p answers = some res := by
  induction T generalizing prevp p n with
  | nil =>
    obtain ⟨n, rfl⟩ : ∃ m, n = m + 1 := ⟨n - 1, by rw [List.length_nil] at hlen; omega⟩
    obtain rfl : p = s.freep := h.path
    obtain ⟨a, ha, hle⟩ := hfit
    rw [List.nil_append, List.mem_singleton] at ha
    rw [search_fit (ha ▸ hle)]
    exact ⟨_, rfl⟩
  | cons a T ih =>
    obtain ⟨n, rfl⟩ : ∃ m, n = m + 1 := ⟨n - 1, by rw [List.length_cons] at hlen; omega⟩
    obtain ⟨rfl, hne, htail⟩ := h.tail
    by_cases hp : nunits ≤ s.size p
    · rw [search_fit hp]
      exact ⟨_, rfl⟩
    · rw [search_next hp hne]
      obtain ⟨b, hb, hle⟩ := hfit
      refine ih htail ⟨b, ?_, hle⟩ (Nat.lt_of_succ_lt_succ hlen)
      obtain rfl | hb := List.mem_cons.mp hb
      · exact absurd hle hp
      · exact hb

/-- **The loop of `malloc` ends**, whatever `sbrk` may return. -/
theorem Inv.search_total (h : Inv s L U) (hahead : Ahead s L nunits prevp p T)
    (hok : nunits < 2 ^ 28 ∨ ∃ a ∈ T ++ [s.freep], nunits ≤ s.size a)
    (hr : s.mayReturn (coreBytes nunits) r) :
    ∃ N, ∀ fuel n, N ≤ fuel → N ≤ n → ∃ res, Malloc.search fuel nunits n s prevp p
    [r] = some res := by
  induction T generalizing prevp p with
  | cons a T ih =>
    obtain ⟨rfl, hne, htail⟩ := hahead.tail
    by_cases hp : nunits ≤ s.size p
    · refine ⟨1, fun fuel n _ hn => ?_⟩
      obtain ⟨n, rfl⟩ : ∃ m, n = m + 1 := ⟨n - 1, by omega⟩
      rw [search_fit hp]
      exact ⟨_, rfl⟩
    · obtain ⟨N, hN⟩ := ih htail (hok.imp_right fun ⟨b, hb, hle⟩ => ⟨b, by
        obtain rfl | hb := List.mem_cons.mp hb
        · exact absurd hle hp
        · exact hb, hle⟩)
      refine ⟨N + 1, fun fuel n hfuel hn => ?_⟩
      obtain ⟨n, rfl⟩ : ∃ m, n = m + 1 := ⟨n - 1, by omega⟩
      rw [search_next hp hne]
      exact hN fuel n (by omega) (by omega)
  | nil =>
    obtain rfl : p = s.freep := hahead.path
    by_cases hp : nunits ≤ s.size s.freep
    · refine ⟨1, fun fuel n _ hn => ?_⟩
      obtain ⟨n, rfl⟩ : ∃ m, n = m + 1 := ⟨n - 1, by omega⟩
      rw [search_fit hp]
      exact ⟨_, rfl⟩
    have hnu : nunits < 2 ^ 28 := by
      refine hok.resolve_right fun ⟨b, hb, hle⟩ => hp ?_
      rwa [List.mem_singleton.mp hb] at hle
    obtain ⟨⟨q, t⟩, hmore⟩ := (h.morecore L.length hnu).1 hr le_rfl
    -- Behind `morecore` there is a block that is large enough, so one more round is left.
    obtain ⟨N, hN⟩ : ∃ N, ∀ fuel n, N ≤ n → q ≠ 0 →
        ∃ res, Malloc.search fuel nunits n t q (t.ptr q) [] = some res := by
      obtain ⟨rfl, -⟩ | ⟨-, rfl, L', hgrows⟩ := (h.morecore _ hnu).2 q t hmore
      · exact ⟨0, fun _ _ _ hq => absurd rfl hq⟩
      · obtain ⟨T', hahead', hmem⟩ := hgrows.inv.ahead nunits
        obtain ⟨b, hb, hle⟩ := hgrows.fits
        exact ⟨T'.length + 1, fun fuel n hn _ => hahead'.found ⟨b, (hmem b).mpr hb, hle⟩ (by omega)⟩
    refine ⟨max L.length (N + 1), fun fuel n hfuel hn => ?_⟩
    obtain ⟨n, rfl⟩ : ∃ m, n = m + 1 := ⟨n - 1, by omega⟩
    rw [search_round hp]
    dsimp only
    rw [morecore_mono hmore (by omega)]
    dsimp only
    by_cases hq : q = 0
    · rw [if_pos hq]
      exact ⟨_, rfl⟩
    · rw [if_neg hq]
      exact hN fuel n (by omega) hq

/-! ## Runs -/

theorem Inv.perm {U' : List ℕ} (h : Inv s L U) (hU : U.Perm U') : Inv s L U' where
  base_pos := h.base_pos
  ring := h.ring
  head := h.head
  sorted := h.sorted
  rover := h.rover
  base_size := h.base_size
  pos a ha := h.pos a ((hU.append_left L).mem_iff.mpr ha)
  used := fun hmem => h.used (hU.mem_iff.mpr hmem)
  tiles x := (Heap.cover_perm (hU.append_left L).symm s x).trans (h.tiles x)
  low := h.low
  high := h.high
  base_lt := h.base_lt
  top_lt := h.top_lt

theorem Inv.setLive (h : Inv s L U) (l : List (ℕ × ℕ)) : Inv { s with live := l } L U :=
  ⟨h.base_pos, h.ring, h.head, h.sorted, h.rover, h.base_size, h.pos, h.used, h.tiles, h.low,
    h.high, h.base_lt, h.top_lt⟩

/-- The heap is in order, and the blocks of the live pointers have room for the requests. -/
structure Ready (s : Heap) (L : List ℕ) : Prop where
  inv : Inv s L s.used
  room : ∀ x ∈ s.live, 8 ≤ x.1 ∧ x.2 + 8 ≤ 8 * s.size (x.1 - 8)

theorem mem_used_of_live {x : ℕ × ℕ} (hx : x ∈ s.live) : x.1 - 8 ∈ s.used :=
  List.mem_map.mpr ⟨x, hx, rfl⟩

/-- The first call of `malloc` sets up the list. -/
theorem ready_init (h : machine.init s) : Ready s.init [s.base] := by
  obtain ⟨hpos, hlt, htop, hfreep, hregions, hlive⟩ := h
  have hinit : s.init = { s with
      ptr := update s.ptr s.base s.base, freep := s.base,
      size := update s.size s.base 0 } := if_pos hfreep
  have hnone : ∀ x, ¬ Heap.obtained { s with
      ptr := update s.ptr s.base s.base, freep := s.base,
      size := update s.size s.base 0 } x := by
    rintro x ⟨r, hr, -⟩
    dsimp only at hr
    rw [hregions] at hr
    cases hr
  rw [hinit]
  refine ⟨⟨hpos, ⟨rfl, update_self _ _ _⟩, rfl, List.pairwise_singleton _ _,
    List.mem_singleton_self _,
    update_self _ _ _, fun a ha hne => ?_, ?_, fun x => ?_, fun x hx => absurd hx (hnone x),
    fun x hx => absurd hx (hnone x), hlt, htop⟩, ?_⟩
  · simp [Heap.used, hlive] at ha
    exact absurd ha hne
  · simp [Heap.used, hlive]
  · rw [if_neg (hnone x)]
    simp [Heap.used, hlive]
  · dsimp only
    rw [hlive]
    exact nofun

theorem Ready.freep_ne (h : Ready s L) : s.freep ≠ 0 := by
  have hle := h.inv.base_le h.inv.rover
  have hpos := h.inv.base_pos
  omega

theorem Ready.init_eq (h : Ready s L) : s.init = s := if_neg h.freep_ne

/-- The state that the loop of `malloc` starts from. -/
theorem exists_ready (h : machine.init s ∨ ∃ L, Ready s L) : ∃ L, Ready s.init L := by
  obtain h | ⟨L, h⟩ := h
  · exact ⟨_, ready_init h⟩
  · exact ⟨L, h.init_eq.symm ▸ h⟩

theorem iterate_mem (h : Inv s L U) (k : ℕ) : s.ptr^[k] s.base ∈ L := by
  induction k with
  | zero => exact h.base_mem
  | succ k ih =>
    rw [iterate_succ_apply']
    obtain hmem | heq := h.ring.next_mem ih
    · exact hmem
    · rw [heq]
      exact h.base_mem

/-- The loop of `malloc` starts with a request that can be answered. -/
theorem exists_ahead (h : machine.init s ∨ ∃ L, Ready s L)
    (hok : requestOk s (.malloc fuel n answers)) :
    ∃ L T, Ready s.init L ∧ Ahead s.init L (units n) s.init.freep (s.init.ptr s.init.freep) T ∧
      (units n < 2 ^ 28 ∨ ∃ a ∈ T ++ [s.init.freep], units n ≤ s.init.size a) := by
  obtain ⟨L, hready⟩ := exists_ready h
  obtain ⟨T, hahead, hmem⟩ := hready.inv.ahead (units n)
  refine ⟨L, T, hready, hahead, hok.2.imp_right fun ⟨hfreep, k, hfit⟩ => ?_⟩
  have hinit : s.init = s := if_neg hfreep
  rw [hinit] at hready hmem ⊢
  exact ⟨_, (hmem _).mpr (iterate_mem hready.inv k), hfit⟩

theorem le_units (hn : n + 8 - 1 < 2 ^ 32) : 1 ≤ units n ∧ n + 8 ≤ 8 * units n := by
  unfold units
  rw [Nat.mod_eq_of_lt hn]
  omega

theorem mayReturn_init (h : s.mayReturn k r) : s.init.mayReturn k r := by
  unfold Heap.init
  split_ifs
  · cases r <;> exact h
  · exact h

/-- A call of `malloc` keeps the heap in order. -/
theorem Ready.malloc (h : Ready s L) {r : ℕ} (hn : n + 8 ≤ 8 * nunits)
    (hres : Outcome s s.used nunits (r, t)) :
    ∃ L', Ready (if r = 0 then t else { t with live := (r, n) :: t.live }) L' := by
  have hroom : ∀ (u : Heap), (∀ a ∈ s.used, u.size a = s.size a) → ∀ x ∈ s.live,
      8 ≤ x.1 ∧ x.2 + 8 ≤ 8 * u.size (x.1 - 8) := fun u hu x hx => by
    rw [hu _ (mem_used_of_live hx)]
    exact h.room x hx
  cases hres with
  | null t L' inv used live =>
    rw [if_pos rfl]
    refine ⟨L', ?_, ?_⟩
    · rw [Heap.used, live]
      exact inv
    · rw [live]
      exact hroom t used
  | block t L' c inv size used live =>
    rw [if_neg (Nat.succ_ne_zero _), live]
    have hused : Heap.used { t with live := (c + 8, n) :: s.live } = c :: s.used := by
      simp only [Heap.used, List.map_cons, Nat.add_sub_cancel]
    refine ⟨L', ⟨?_, fun x hx => ?_⟩⟩
    · rw [hused]
      exact inv.setLive _
    · obtain hx | hx := List.mem_cons.mp hx
      · simp only [hx, Nat.add_sub_cancel, size]
        exact ⟨Nat.le_add_left 8 c, hn⟩
      · exact hroom t used x hx

/-- A call of `free` returns and keeps the heap in order. -/
theorem Ready.free (h : Ready s L) (fuel : ℕ) (hap : ap ∈ s.live.map Prod.fst) :
    (∃ fuel t, Malloc.free fuel s ap = some t) ∧ ∀ t, Malloc.free fuel s ap = some t →
      ∃ L', Ready { t with live := s.live.eraseP fun x => x.1 = ap } L' := by
  obtain ⟨x, hx, rfl⟩ := List.mem_map.mp hap
  obtain ⟨y, l1, l2, -, hy, heq, herase⟩ :=
    List.exists_of_eraseP (p := fun y : ℕ × ℕ => decide (y.1 = x.1)) hx (decide_eq_true rfl)
  have hy : y.1 = x.1 := of_decide_eq_true hy
  have hperm : s.used.Perm ((x.1 - 8) :: (l1 ++ l2).map fun z => z.1 - 8) := by
    rw [Heap.used, heq, ← hy]
    exact List.perm_middle.map _
  have hinv := h.inv.perm hperm
  have hroom := (h.room x hx).1
  have hle := hinv.block_le (a := x.1 - 8) Inv.mem_used
  have hpos := hinv.pos _ Inv.mem_used hinv.ne_base
  have htop := hinv.top_lt
  have hheader : header x.1 = x.1 - 8 := by
    unfold header
    omega
  obtain ⟨htotal, -⟩ := hinv.free L.length hheader
  obtain ⟨-, hfree⟩ := hinv.free fuel hheader
  obtain ⟨u, hu⟩ := htotal le_rfl
  refine ⟨⟨_, u, hu⟩, fun t ht => ?_⟩
  obtain ⟨-, L', hinv', hused, -⟩ := hfree t ht
  rw [herase]
  refine ⟨L', ⟨hinv'.setLive _, fun z hz => ?_⟩⟩
  · dsimp only at hz ⊢
    rw [hused _ (List.mem_map.mpr ⟨z, hz, rfl⟩)]
    refine h.room z (heq ▸ ?_)
    exact List.mem_append.mpr ((List.mem_append.mp hz).imp_right (List.mem_cons_of_mem y))

theorem step_ready {act : Act} (h : machine.init s ∨ ∃ L, Ready s L) (hok : requestOk s act)
    (hstep : step s act = some t) : ∃ L, Ready t L := by
  cases act with
  | malloc fuel n answers =>
    obtain ⟨-, hstep⟩ := Option.ite_none_right_eq_some.mp hstep
    obtain ⟨L, T, hready, hahead, hfit⟩ := exists_ahead h hok
    obtain ⟨hone, hroom⟩ := le_units hok.1
    cases hres : malloc fuel s n answers with
    | none =>
      rw [hres] at hstep
      cases hstep
    | some rt =>
      obtain ⟨r, u⟩ := rt
      rw [hres] at hstep
      cases hstep
      rw [malloc] at hres
      exact hready.malloc hroom (hready.inv.search hone hahead hfit hres)
  | free fuel ap =>
    obtain ⟨hap, hstep⟩ := Option.ite_none_right_eq_some.mp hstep
    obtain ⟨u, hu, rfl⟩ := Option.map_eq_some_iff.mp hstep
    obtain ⟨-, -, -, -, -, hlive⟩ | ⟨L, hready⟩ := h
    · rw [hlive] at hap
      cases hap
    · exact (hready.free fuel hap).2 u hu

theorem reach_ready (h : machine.Reach requestOk s) : machine.init s ∨ ∃ L, Ready s L :=
  h.invariant (I := fun s => machine.init s ∨ ∃ L, Ready s L)
      (fun _ => .inl) fun _ _ _ hinv hok hstep =>
    .inr (step_ready hinv hok hstep)

/-! ## The heap -/

theorem Ready.userHeap (h : Ready s L) : ∃ F, UserHeap s F := by
  obtain ⟨F, rfl⟩ := List.head?_eq_some_iff.mp h.inv.head
  refine ⟨F, .inr ⟨h.inv.ring, h.inv.rover, h.inv.sorted⟩, fun x => ?_, fun ap n hap y hy => ?_⟩
  · have htiles := h.inv.tiles x
    rw [List.cons_append, Heap.cover_cons, h.inv.base_size, covers_zero, Nat.zero_add,
      Heap.cover_eq_length] at htiles
    exact htiles
  · obtain ⟨hle, hroom⟩ := h.room _ hap
    dsimp only at hle hroom
    have hused : ap - 8 ∈ s.used := mem_used_of_live (x := (ap, n)) hap
    have hmem : ap - 8 ∈ s.base :: F ++ s.used := List.mem_append_right _ hused
    have hin : s.inBlock (ap + y) (ap - 8) := by
      unfold Heap.inBlock
      omega
    have hobt := h.inv.obtained hmem hin
    refine ⟨hobt, fun a ha hne hx => ?_, fun a ha hx => ?_, fun a ha hx => ?_⟩
    · exact hne (h.inv.eq_of_inBlock (List.mem_append_right _ ha) hmem hx hin)
    · by_cases hbase : a = s.base
      · have hlow := h.inv.low _ hobt
        omega
      · have hpos := h.inv.pos a ha hbase
        have heq := h.inv.eq_of_inBlock ha hmem (x := ap + y) (by unfold Heap.inBlock; omega) hin
        omega
    · have hFmem : a ∈ s.base :: F := List.mem_cons_of_mem _ ha
      have heq := h.inv.eq_of_inBlock (List.mem_append_left _ hFmem) hmem hx hin
      exact h.inv.notUsed hFmem (heq ▸ hused)

/-- **The user heap.** In every run whose requests do not wrap, and can be put to `sbrk` unless a
free block is large enough, the free list is circular and ordered, every byte that was obtained is
in exactly one block, a live pointer has room for its request that nothing else uses, and both calls
return. -/
theorem user_heap (h : machine.Reach requestOk s) : (∃ F, UserHeap s F) ∧
    (∀ fuel n answers, requestOk s (.malloc fuel n answers) → Terminates s n) ∧
    ∀ ap ∈ s.live.map Prod.fst, ∃ fuel t, free fuel s ap = some t := by
  have hready := reach_ready h
  refine ⟨?_, fun fuel n answers hok r hr => ?_, fun ap hap => ?_⟩
  · obtain ⟨-, -, -, hfreep, hregions, hlive⟩ | ⟨L, hready⟩ := hready
    · have hnone : ∀ x, ¬ s.obtained x := by
        rintro x ⟨r, hr, -⟩
        rw [hregions] at hr
        cases hr
      refine ⟨[], .inl ⟨hfreep, rfl⟩, fun x => ?_, fun ap n hap => ?_⟩
      · rw [if_neg (hnone x)]
        simp [Heap.used, hlive]
      · rw [hlive] at hap
        cases hap
    · exact hready.userHeap
  · obtain ⟨L, T, hinit, hahead, hfit⟩ := exists_ahead hready hok
    obtain ⟨N, hN⟩ := hinit.inv.search_total hahead hfit (mayReturn_init hr)
    obtain ⟨res, hres⟩ := hN N N le_rfl le_rfl
    refine ⟨N, res, ?_⟩
    rw [malloc]
    exact hres
  · obtain ⟨-, -, -, -, -, hlive⟩ | ⟨L, hready⟩ := hready
    · rw [hlive] at hap
      cases hap
    · exact (hready.free 0 hap).1

/-- A program with `base` in its second page, and memory from its third page on. -/
def loaded : Heap where
  base := 4096
  freep := 0
  ptr _ := 0
  size _ := 0
  top := 8192
  regions := []
  live := []

theorem loaded_init : machine.init loaded := ⟨by decide, by decide, by decide, rfl, rfl, rfl⟩

/-- Requests below half of the address space. -/
def smallRequest : Act → Bool
  | .malloc _ n _ => n < 2 ^ 31 - 16
  | .free .. => true

theorem requestOk_of_small {act : Act} (h : smallRequest act = true) : requestOk s act := by
  cases act with
  | malloc fuel n answers =>
    have hn : n < 2 ^ 31 - 16 := of_decide_eq_true h
    refine ⟨by omega, .inl ?_⟩
    unfold units
    omega
  | free fuel ap => trivial

set_option maxRecDepth 100000 in
/-- Two requests, the first of which is freed again and its block joined with the rest; a third one
that `sbrk` has to be asked for. -/
theorem user_heap_three : ∃ s, machine.Reach requestOk s ∧ s.live.length = 2 ∧
    s.regions.length = 2 ∧ ∃ F, UserHeap s F := by
  have hrun : ((machine.restrict fun _ act => smallRequest act).exec loaded
      [.malloc 9 10 [some 8192], .malloc 9 100 [], .free 9 40944, .malloc 9 40000 [some 65536]]).any
      (fun s => s.live.length = 2 ∧ s.regions.length = 2) = true := by
    decide +kernel
  obtain ⟨s, hs, hP⟩ := (Option.any_eq_true _ _).mp hrun
  obtain ⟨hlive, hregions⟩ := of_decide_eq_true hP
  have hreach : machine.Reach requestOk s :=
    Machine.reach_of_exec_restrict (fun _ _ => requestOk_of_small) (.init loaded_init) _ hs
  exact ⟨s, hreach, hlive, hregions, (user_heap hreach).1⟩

set_option maxRecDepth 100000 in
/-- A request of `2 ^ 32 - 7` bytes gets a block without any byte behind its header, at the end of
memory. -/
theorem wrapped_request : ∃ s, machine.Reachable s ∧ ¬ ∃ F, UserHeap s F := by
  have hrun : (machine.exec loaded [.malloc 9 (2 ^ 32 - 7) [some 8192]]).any
      (fun s => s.live = [(40960, 2 ^ 32 - 7)] ∧ ¬ s.obtained 40960) = true := by
    decide +kernel
  obtain ⟨s, hs, hP⟩ := (Option.any_eq_true _ _).mp hrun
  obtain ⟨hlive, hnot⟩ := of_decide_eq_true hP
  refine ⟨s, Machine.reachable_of_exec loaded_init _ hs, fun ⟨F, hF⟩ => hnot ?_⟩
  exact (hF.room 40960 (2 ^ 32 - 7)
    (by rw [hlive]; exact List.mem_singleton_self _) 0 (by decide)).1

end Dockv6.Malloc
