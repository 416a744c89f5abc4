import Dockv6.User.Malloc

/-!
# The blocks of the user heap

The free list is a circular list in the order of addresses, and for every byte the number of blocks
that it is in is 1 or 0, as it was obtained or not (`Inv`). A block that is neither free nor used by
the program can be put back (`Inv.free`), and one can be taken out (`Inv.take`).
-/

namespace Dockv6.Malloc

open Function

variable {s t : Heap} {L U A B C l l' : List ℕ} {x a b p q bp n m : ℕ}

/-! ## Counting the blocks of a byte -/

/-- The block of `n` units at `a` has the byte `x` once or not at all. -/
def covers (x a n : ℕ) : ℕ := if a ≤ x ∧ x < a + 8 * n then 1 else 0

@[simp] theorem covers_zero (x a : ℕ) : covers x a 0 = 0 := if_neg (by omega)

/-- A block is cut in two. -/
theorem covers_add (x a n m : ℕ) : covers x a (n + m) = covers x a n + covers x (a + 8 * n) m := by
  unfold covers
  split_ifs <;> omega

theorem covers_of_inBlock (h : s.inBlock x a) : covers x a (s.size a) = 1 := if_pos h

namespace Heap

/-- In how many of the blocks is the byte? -/
def cover (s : Heap) (x : ℕ) (l : List ℕ) : ℕ := (l.map fun a => covers x a (s.size a)).sum

@[simp] theorem cover_nil (s : Heap) (x : ℕ) : s.cover x [] = 0 := rfl

@[simp] theorem cover_cons (s : Heap) (x a : ℕ) (l : List ℕ) :
    s.cover x (a :: l) = covers x a (s.size a) + s.cover x l := List.sum_cons

@[simp] theorem cover_append (s : Heap) (x : ℕ) (l l' : List ℕ) :
    s.cover x (l ++ l') = s.cover x l + s.cover x l' := by
  unfold cover
  rw [List.map_append, List.sum_append]

theorem cover_congr (h : ∀ a ∈ l, t.size a = s.size a) (x : ℕ) : t.cover x l = s.cover x l := by
  unfold cover
  rw [List.map_congr_left fun a ha => by rw [h a ha]]

theorem cover_perm (h : l.Perm l') (s : Heap) (x : ℕ) : s.cover x l = s.cover x l' :=
  (h.map _).sum_eq

theorem cover_eq_length (s : Heap) (x : ℕ) (l : List ℕ) :
    s.cover x l = (l.filter fun a => s.inBlock x a).length := by
  induction l with
  | nil => rfl
  | cons a l ih =>
    rw [cover_cons, ih, List.filter_cons]
    by_cases hx : s.inBlock x a
    · rw [covers_of_inBlock hx, if_pos (decide_eq_true hx), List.length_cons, Nat.add_comm]
    · have hzero : covers x a (s.size a) = 0 := if_neg hx
      rw [hzero, if_neg (by simpa using hx), Nat.zero_add]

theorem one_le_cover (ha : a ∈ l) (hx : s.inBlock x a) : 1 ≤ s.cover x l := by
  obtain ⟨l1, l2, rfl⟩ := List.append_of_mem ha
  rw [cover_append, cover_cons, covers_of_inBlock hx]
  omega

theorem two_le_cover (ha : a ∈ l) (hb : b ∈ l) (hab : a ≠ b) (hxa : s.inBlock x a)
    (hxb : s.inBlock x b) : 2 ≤ s.cover x l := by
  obtain ⟨l1, l2, rfl⟩ := List.append_of_mem ha
  have hb' : b ∈ l1 ++ l2 := by
    simp only [List.mem_append, List.mem_cons] at hb ⊢
    obtain hb | hb | hb := hb
    · exact .inl hb
    · exact absurd hb.symm hab
    · exact .inr hb
  have hone := one_le_cover hb' hxb
  rw [cover_append] at hone
  rw [cover_append, cover_cons, covers_of_inBlock hxa]
  omega

end Heap

/-! ## The invariant -/

/-- The free list is `L`, with `base` in front, and `U` are the other blocks. -/
structure Inv (s : Heap) (L U : List ℕ) : Prop where
  base_pos : 0 < s.base
  ring : Path s.ptr s.base L s.base
  head : L.head? = some s.base
  sorted : L.Pairwise (· < ·)
  rover : s.freep ∈ L
  base_size : s.size s.base = 0
  pos : ∀ a ∈ L ++ U, a ≠ s.base → 0 < s.size a
  used : s.base ∉ U
  tiles : ∀ x, s.cover x (L ++ U) = if s.obtained x then 1 else 0
  low : ∀ x, s.obtained x → s.base + 8 ≤ x
  high : ∀ x, s.obtained x → x < s.top
  base_lt : s.base + 8 ≤ s.top
  top_lt : s.top < 2 ^ 32

namespace Inv

section

variable (h : Inv s L U)

include h

theorem obtained (ha : a ∈ L ++ U) (hx : s.inBlock x a) : s.obtained x := by
  have hone := Heap.one_le_cover ha hx
  rw [h.tiles] at hone
  by_contra hnot
  rw [if_neg hnot] at hone
  omega

/-- No byte is in two blocks. -/
theorem eq_of_inBlock (ha : a ∈ L ++ U) (hb : b ∈ L ++ U) (hxa : s.inBlock x a)
    (hxb : s.inBlock x b) : a = b := by
  by_contra hab
  have htwo := Heap.two_le_cover ha hb hab hxa hxb
  rw [h.tiles] at htwo
  split_ifs at htwo <;> omega

theorem inBlock_self (ha : a ∈ L ++ U) (hne : a ≠ s.base) : s.inBlock a a := by
  have hpos := h.pos a ha hne
  unfold Heap.inBlock
  omega

/-- A block ends below the end of memory. -/
theorem block_le (ha : a ∈ L ++ U) : a + 8 * s.size a ≤ s.top := by
  by_cases hne : a = s.base
  · rw [hne, h.base_size]
    have := h.base_lt
    omega
  · have hpos := h.pos a ha hne
    have hlast := h.high _
      (h.obtained (x := a + 8 * s.size a - 1) ha (by unfold Heap.inBlock; omega))
    omega

theorem base_lt_of_mem (ha : a ∈ L ++ U) (hne : a ≠ s.base) : s.base < a := by
  have hlow := h.low a (h.obtained ha (h.inBlock_self ha hne))
  omega

theorem base_mem : s.base ∈ L := List.mem_of_mem_head? h.head

theorem base_le (ha : a ∈ L) : s.base ≤ a := by
  by_cases hne : a = s.base
  · exact hne.ge
  · exact (h.base_lt_of_mem (List.mem_append_left U ha) hne).le

/-- The end of a block is an address. -/
theorem add_eq (ha : a ∈ L ++ U) (hn : n ≤ s.size a) : add a n = a + 8 * n := by
  have hle := h.block_le ha
  have htop := h.top_lt
  unfold add
  rw [Nat.mod_eq_of_lt]
  omega

theorem ptr_eq (hL : L = A ++ p :: B) :
    (B = [] ∧ s.ptr p = s.base) ∨ ∃ y B', B = y :: B' ∧ s.ptr p = y ∧ p < y := by
  have hring := h.ring
  have hsorted := h.sorted
  rw [hL] at hring hsorted
  obtain ⟨-, hrest⟩ := hring.split
  cases B with
  | nil => exact .inl ⟨rfl, hrest⟩
  | cons y B' =>
    refine .inr ⟨y, B', rfl, hrest.1, ?_⟩
    exact (List.pairwise_cons.mp (List.pairwise_append.mp hsorted).2.1).1 y List.mem_cons_self

end

/-! ## The place of a block -/

theorem exists_split (hsorted : (a :: l).Pairwise (· < ·)) (ha : a < bp) (hbp : bp ∉ l) :
    ∃ A p B, a :: l = A ++ p :: B ∧ p < bp ∧ ∀ b ∈ B, bp < b := by
  induction l generalizing a with
  | nil => exact ⟨[], a, [], rfl, ha, nofun⟩
  | cons c l ih =>
    have hrest := (List.pairwise_cons.mp hsorted).2
    obtain ⟨hne, hnot⟩ : bp ≠ c ∧ bp ∉ l := by simpa using hbp
    by_cases hc : c < bp
    · obtain ⟨A, p, B, heq, hp, hB⟩ := ih hrest hc hnot
      exact ⟨a :: A, p, B, congrArg (a :: ·) heq, hp, hB⟩
    · refine ⟨[], a, c :: l, rfl, ha, fun b hb => ?_⟩
      obtain rfl | hb := List.mem_cons.mp hb
      · omega
      · have := (List.pairwise_cons.mp hrest).1 b hb
        omega

theorem mem_used : bp ∈ L ++ bp :: U := List.mem_append_right L List.mem_cons_self

section Place

variable (h : Inv s L (bp :: U))

include h

theorem ne_base : bp ≠ s.base := fun heq => h.used (heq ▸ List.mem_cons_self)

theorem base_lt_bp : s.base < bp := h.base_lt_of_mem mem_used h.ne_base

/-- A block that is not free is not in the list. -/
theorem notMem : bp ∉ L := by
  intro hmem
  have hself := h.inBlock_self mem_used h.ne_base
  have hone := Heap.one_le_cover hmem hself
  have htiles := h.tiles bp
  rw [Heap.cover_append, Heap.cover_cons, covers_of_inBlock hself] at htiles
  split_ifs at htiles <;> omega

theorem exists_place : ∃ A p B, L = A ++ p :: B ∧ p < bp ∧ ∀ b ∈ B, bp < b := by
  obtain ⟨l, hl⟩ := List.head?_eq_some_iff.mp h.head
  have hsorted := h.sorted
  have hnot := h.notMem
  rw [hl] at hsorted hnot ⊢
  exact exists_split hsorted h.base_lt_bp fun hmem => hnot (List.mem_cons_of_mem _ hmem)

variable (hL : L = A ++ p :: B) (hp : p < bp) (hB : ∀ b ∈ B, bp < b)

include hL hp hB

theorem place_self : s.place bp p = true := by
  have hbase := h.base_lt_bp
  have hle := h.base_le (a := p) (by rw [hL]; simp)
  simp only [Heap.place, Bool.or_eq_true, decide_eq_true_eq]
  obtain ⟨-, hptr⟩ | ⟨y, B', rfl, hptr, -⟩ := h.ptr_eq hL
  · rw [hptr]
    exact .inr ⟨hle, .inl hp⟩
  · rw [hptr]
    exact .inl ⟨hp, hB y List.mem_cons_self⟩

/-- The loop of `free` stops nowhere else. -/
theorem place_only (ha : a ∈ L) (hplace : s.place bp a = true) : a = p := by
  have hbase := h.base_lt_bp
  simp only [Heap.place, Bool.or_eq_true, decide_eq_true_eq] at hplace
  have hsorted := h.sorted
  rw [hL] at ha hsorted
  obtain ⟨-, hpB, hAp⟩ := List.pairwise_append.mp hsorted
  obtain ha | ha := List.mem_append.mp ha
  · -- A node before `p` has a successor up to `p`.
    obtain ⟨A1, A2, rfl⟩ := List.append_of_mem ha
    have hL' : L = A1 ++ a :: (A2 ++ p :: B) := by rw [hL]; simp
    obtain ⟨hnil, -⟩ | ⟨y, B', heq, hptr, hlt⟩ := h.ptr_eq hL'
    · simp at hnil
    · have hy : y ∈ A2 ++ [p] := by
        cases A2 with
        | nil => simp_all
        | cons c A2 => simp_all
      have hyp : y ≤ p := by
        obtain hy | hy := List.mem_append.mp hy
        · exact (hAp y (by simp [hy]) p List.mem_cons_self).le
        · exact (List.mem_singleton.mp hy).le
      rw [hptr] at hplace
      omega
  · obtain rfl | ha := List.mem_cons.mp ha
    · rfl
    · -- A node behind `p` is above the block.
      have hab := hB a ha
      obtain ⟨B1, B2, rfl⟩ := List.append_of_mem ha
      have hL' : L = (A ++ p :: B1) ++ a :: B2 := by rw [hL]; simp
      obtain ⟨-, hptr⟩ | ⟨y, B', -, hptr, hlt⟩ := h.ptr_eq hL'
      · rw [hptr] at hplace
        omega
      · rw [hptr] at hplace
        omega

/-- The loop of `free` finds the place. -/
theorem seek_place (hn : L.length ≤ n) : seek s.ptr (s.place bp) n s.freep = some p := by
  obtain ⟨l1, l2, heq⟩ := List.append_of_mem h.rover
  have hring := h.ring
  rw [heq] at hring
  have hround : ∀ c, c ∈ s.freep :: l2 ++ l1 ↔ c ∈ L := by
    intro c
    rw [heq]
    simp only [List.mem_append, List.mem_cons]
    tauto
  refine hring.rotate.seek ((hround p).mpr ?_) (h.place_self hL hp hB) (fun c hc => ?_) ?_
  · rw [hL]
    simp
  · exact h.place_only hL hp hB ((hround c).mp hc)
  · have hlen := congrArg List.length heq
    simp only [List.length_append, List.length_cons] at hlen ⊢
    omega

end Place

end Inv

/-! ## Joining blocks -/

theorem joinUpper_size (ha : a ≠ bp) : (s.joinUpper bp p).size a = s.size a := by
  unfold Heap.joinUpper
  split_ifs
  · exact update_of_ne ha _ _
  · rfl

theorem joinUpper_ptr (ha : a ≠ bp) : (s.joinUpper bp p).ptr a = s.ptr a := by
  unfold Heap.joinUpper
  split_ifs <;> exact update_of_ne ha _ _

theorem joinLower_size (ha : a ≠ p) : (s.joinLower bp p).size a = s.size a := by
  unfold Heap.joinLower
  split_ifs
  · exact update_of_ne ha _ _
  · rfl

theorem joinLower_ptr (ha : a ≠ p) : (s.joinLower bp p).ptr a = s.ptr a := by
  unfold Heap.joinLower
  split_ifs <;> exact update_of_ne ha _ _

/-- What `free` does not change. -/
theorem release_frame (s : Heap) (bp p : ℕ) : (s.release bp p).base = s.base ∧
    (s.release bp p).top = s.top ∧ (s.release bp p).regions = s.regions ∧
    (s.release bp p).live = s.live := by
  unfold Heap.release Heap.joinLower Heap.joinUpper
  split_ifs <;> exact ⟨rfl, rfl, rfl, rfl⟩

namespace Inv

section Join

variable (h : Inv s L (bp :: U)) (hL : L = A ++ p :: B) (hp : p < bp) (hB : ∀ b ∈ B, bp < b)

include h hL hp hB

theorem joinUpper_spec : ∃ B1, B1.Sublist B ∧
    Path (s.joinUpper bp p).ptr ((s.joinUpper bp p).ptr bp) B1 s.base ∧
    (∀ x, covers x bp ((s.joinUpper bp p).size bp) + s.cover x B1 =
      covers x bp (s.size bp) + s.cover x B) ∧
    s.size bp ≤ (s.joinUpper bp p).size bp ∧ bp + 8 * (s.joinUpper bp p).size bp ≤ s.top := by
  have hbase := h.base_lt_bp
  have hend : add bp (s.size bp) = bp + 8 * s.size bp := h.add_eq mem_used le_rfl
  have hle := h.block_le mem_used
  have hring := h.ring
  rw [hL] at hring
  obtain ⟨-, hrest⟩ := hring.split
  have hcongr : ∀ {B1 : List ℕ} {c}, B1.Sublist B → Path s.ptr c B1 s.base →
      Path (s.joinUpper bp p).ptr c B1 s.base := fun {B1 c} hsub hpath =>
    hpath.congr fun b hb => joinUpper_ptr (hB b (hsub.subset hb)).ne'
  by_cases hjoin : add bp (s.size bp) = s.ptr p
  · -- The list goes on with the block that `bp` is joined with.
    obtain ⟨-, hptr⟩ | ⟨y, B', rfl, hptr, -⟩ := h.ptr_eq hL
    · omega
    have hy : y ∈ L ++ bp :: U := by rw [hL]; simp
    have hyle := h.block_le hy
    have htop := h.top_lt
    have hsize : (s.joinUpper bp p).size bp = s.size bp + s.size y := by
      rw [Heap.joinUpper, if_pos hjoin, hptr]
      exact (update_self _ _ _).trans (Nat.mod_eq_of_lt (by omega))
    have hnext : (s.joinUpper bp p).ptr bp = s.ptr y := by
      rw [Heap.joinUpper, if_pos hjoin, hptr]
      exact update_self _ _ _
    refine ⟨B', List.sublist_cons_self y B', ?_, fun x => ?_, ?_, ?_⟩
    · rw [hnext]
      exact hcongr (List.sublist_cons_self y B') hrest.2
    · have hyx : bp + 8 * s.size bp = y := by omega
      rw [hsize, covers_add, hyx, Heap.cover_cons, Nat.add_assoc]
    · omega
    · omega
  · have hsize : (s.joinUpper bp p).size bp = s.size bp := by rw [Heap.joinUpper, if_neg hjoin]
    have hnext : (s.joinUpper bp p).ptr bp = s.ptr p := by
      rw [Heap.joinUpper, if_neg hjoin]
      exact update_self _ _ _
    refine ⟨B, List.Sublist.refl B, ?_, fun x => ?_, ?_, ?_⟩
    · rw [hnext]
      exact hcongr (List.Sublist.refl B) hrest
    · rw [hsize]
    · exact hsize.ge
    · rw [hsize]
      exact hle

/-- What comes behind the place of the block, after `free`. -/
theorem release_spec : ∃ C, C.Sublist (bp :: B) ∧
    Path (s.release bp p).ptr ((s.release bp p).ptr p) C s.base ∧
    (∀ x, covers x p ((s.release bp p).size p) + (s.release bp p).cover x C =
      covers x p (s.size p) + (covers x bp (s.size bp) + s.cover x B)) ∧
    (∃ a ∈ p :: C, s.size bp ≤ (s.release bp p).size a) ∧
    (∀ a ∈ p :: C, s.size a ≤ (s.release bp p).size a) ∧
    (p = s.base → (s.release bp p).size p = s.size p) := by
  obtain ⟨B1, hsub, hpath, hcover, hsize, hle⟩ := h.joinUpper_spec hL hp hB
  have hpmem : p ∈ L ++ bp :: U := by rw [hL]; simp
  have hend : add p (s.size p) = p + 8 * s.size p := h.add_eq hpmem le_rfl
  have hsame : (s.joinUpper bp p).size p = s.size p := joinUpper_size hp.ne
  have hbelow : ∀ b ∈ B1, p < b := fun b hb => hp.trans (hB b (hsub.subset hb))
  have hold : ∀ b ∈ B1, (s.release bp p).size b = s.size b := fun b hb =>
    (joinLower_size (hbelow b hb).ne').trans (joinUpper_size (hB b (hsub.subset hb)).ne')
  have hrest : Path (s.release bp p).ptr ((s.joinUpper bp p).ptr bp) B1 s.base :=
    hpath.congr fun b hb => joinLower_ptr (hbelow b hb).ne'
  have htop := h.top_lt
  by_cases hjoin : add p ((s.joinUpper bp p).size p) = bp
  · have hbp : p + 8 * s.size p = bp := by rw [hsame] at hjoin; omega
    have hsum : (s.release bp p).size p = s.size p + (s.joinUpper bp p).size bp := by
      rw [← hsame]
      unfold Heap.release Heap.joinLower
      rw [if_pos hjoin]
      exact (update_self _ _ _).trans (Nat.mod_eq_of_lt (by omega))
    have hnext : (s.release bp p).ptr p = (s.joinUpper bp p).ptr bp := by
      unfold Heap.release Heap.joinLower
      rw [if_pos hjoin]
      exact update_self _ _ _
    refine ⟨B1, hsub.trans (List.sublist_cons_self bp B), hnext ▸ hrest, fun x => ?_,
      ⟨p, List.mem_cons_self, by omega⟩, fun a ha => ?_, fun heq => ?_⟩
    · rw [hsum, covers_add, hbp, Heap.cover_congr hold, Nat.add_assoc, hcover]
    · obtain rfl | ha := List.mem_cons.mp ha
      · omega
      · exact (hold a ha).ge
    · -- The header `base` has no bytes that could reach the block.
      have hbase := h.base_lt_bp
      rw [heq, h.base_size] at hbp
      omega
  · have hsp : (s.release bp p).size p = s.size p := by
      rw [← hsame]
      unfold Heap.release Heap.joinLower
      rw [if_neg hjoin]
    have hsbp : (s.release bp p).size bp = (s.joinUpper bp p).size bp := joinLower_size hp.ne'
    have hnext : (s.release bp p).ptr p = bp := by
      unfold Heap.release Heap.joinLower
      rw [if_neg hjoin]
      exact update_self _ _ _
    have hnext' : (s.release bp p).ptr bp = (s.joinUpper bp p).ptr bp := joinLower_ptr hp.ne'
    refine ⟨bp :: B1, hsub.cons_cons bp, ⟨hnext, hnext' ▸ hrest⟩, fun x => ?_,
      ⟨bp, by simp, hsize.trans hsbp.ge⟩, fun a ha => ?_, fun _ => hsp⟩
    · rw [hsp, Heap.cover_cons, hsbp, Heap.cover_congr hold, hcover]
    · obtain rfl | ha := List.mem_cons.mp ha
      · exact hsp.ge
      · obtain rfl | ha := List.mem_cons.mp ha
        · exact hsize.trans hsbp.ge
        · exact (hold a ha).ge

end Join

/-- A free block is not used, and no block is used twice. -/
theorem disjoint (h : Inv s L (a :: U)) : a ∉ U := by
  intro hmem
  have hself := h.inBlock_self mem_used h.ne_base
  have hone := Heap.one_le_cover hmem hself
  have htiles := h.tiles a
  rw [Heap.cover_append, Heap.cover_cons, covers_of_inBlock hself] at htiles
  split_ifs at htiles <;> omega

theorem notUsed (h : Inv s L U) (ha : a ∈ L) : a ∉ U := by
  intro hmem
  by_cases hne : a = s.base
  · exact h.used (hne ▸ hmem)
  · have hself := h.inBlock_self (List.mem_append_left U ha) hne
    have hone := Heap.one_le_cover hmem hself
    have hone' := Heap.one_le_cover ha hself
    have htiles := h.tiles a
    rw [Heap.cover_append] at htiles
    split_ifs at htiles <;> omega

/-- **A block is put back.** The heap is in order without it, the blocks in use are as before, and
there is a free block that is at least as large. -/
theorem release (h : Inv s L (bp :: U)) (hL : L = A ++ p :: B) (hp : p < bp)
    (hB : ∀ b ∈ B, bp < b) :
    ∃ L', Inv (s.release bp p) L' U ∧ (∀ a ∈ U, (s.release bp p).size a = s.size a) ∧
      ∃ a ∈ L', s.size bp ≤ (s.release bp p).size a := by
  obtain ⟨C, hsub, hpath, hcover, hfit, hgrow, hbase⟩ := h.release_spec hL hp hB
  obtain ⟨hb, htop, hregions, -⟩ := release_frame s bp p
  have hobt : ∀ x, (s.release bp p).obtained x ↔ s.obtained x := fun x => by
    rw [Heap.obtained, hregions, Heap.obtained]
  have hsorted : (A ++ p :: bp :: B).Pairwise (· < ·) := by
    have hsorted := h.sorted
    rw [hL] at hsorted
    obtain ⟨hA, hpB, hcross⟩ := List.pairwise_append.mp hsorted
    obtain ⟨hpb, hBB⟩ := List.pairwise_cons.mp hpB
    refine List.pairwise_append.mpr ⟨hA, ?_, fun a ha b hb => ?_⟩
    · refine List.pairwise_cons.mpr ⟨fun b hb => ?_, List.pairwise_cons.mpr ⟨hB, hBB⟩⟩
      obtain rfl | hb := List.mem_cons.mp hb
      · exact hp
      · exact hpb b hb
    · have hap := hcross a ha p List.mem_cons_self
      obtain rfl | hb := List.mem_cons.mp hb
      · exact hap
      · obtain rfl | hb := List.mem_cons.mp hb
        · exact hap.trans hp
        · exact hap.trans (hpb b hb)
  have hApart : ∀ a ∈ A, a ≠ p ∧ a ≠ bp := by
    intro a ha
    have hap := (List.pairwise_append.mp hsorted).2.2 a ha p List.mem_cons_self
    exact ⟨hap.ne, (hap.trans hp).ne⟩
  have hU : ∀ a ∈ U, a ≠ p ∧ a ≠ bp := by
    intro a ha
    refine ⟨?_, fun heq => h.disjoint (heq ▸ ha)⟩
    rintro rfl
    exact h.notUsed (a := a) (by rw [hL]; simp) (List.mem_cons_of_mem bp ha)
  have hsize : ∀ {a}, a ≠ p ∧ a ≠ bp → (s.release bp p).size a = s.size a := fun ha =>
    (joinLower_size ha.1).trans (joinUpper_size ha.2)
  have hring := h.ring
  rw [hL] at hring
  refine ⟨A ++ p ::
    C, ⟨hb ▸ h.base_pos, ?_, ?_, hsorted.sublist ((hsub.cons_cons p).append_left A), ?_, ?_,
    fun a ha hne => ?_, ?_, fun x => ?_, ?_, ?_, ?_, htop ▸ h.top_lt⟩, fun a ha =>
    hsize (hU a ha), ?_⟩
  · rw [hb]
    exact hring.splice
      (fun a ha => (joinLower_ptr (hApart a ha).1).trans (joinUpper_ptr (hApart a ha).2)) hpath
  · have hhead := h.head
    rw [hL] at hhead
    rw [hb]
    cases A <;> exact hhead
  · exact List.mem_append_right A List.mem_cons_self
  · rw [hb]
    by_cases heq : p = s.base
    · rw [← heq, hbase heq, heq, h.base_size]
    · rw [hsize ⟨Ne.symm heq, h.ne_base.symm⟩, h.base_size]
  · rw [hb] at hne
    rw [List.append_assoc, List.cons_append, List.mem_append, List.mem_cons, List.mem_append] at ha
    obtain ha | ha | ha | ha := ha
    · rw [hsize (hApart a ha)]
      exact h.pos a (by rw [hL]; simp [ha]) hne
    · rw [ha] at hne ⊢
      exact (h.pos p (by rw [hL]; simp) hne).trans_le (hgrow p List.mem_cons_self)
    · refine (h.pos a ?_ hne).trans_le (hgrow a (List.mem_cons_of_mem p ha))
      rw [hL]
      obtain rfl | ha := List.mem_cons.mp (hsub.subset ha)
      · simp
      · simp [ha]
    · rw [hsize (hU a ha)]
      exact h.pos a (by simp [ha]) hne
  · rw [hb]
    exact fun hmem => h.used (List.mem_cons_of_mem bp hmem)
  · have htiles := h.tiles x
    have hx := hcover x
    rw [hL, Heap.cover_append, Heap.cover_append, Heap.cover_cons, Heap.cover_cons] at htiles
    rw [Heap.cover_append, Heap.cover_append, Heap.cover_cons, Heap.cover_congr fun a ha =>
      hsize (hApart a ha), Heap.cover_congr fun a ha => hsize (hU a ha)]
    simp only [hobt]
    omega
  · intro x hx
    rw [hb]
    exact h.low x ((hobt x).mp hx)
  · intro x hx
    rw [htop]
    exact h.high x ((hobt x).mp hx)
  · rw [hb, htop]
    exact h.base_lt
  · obtain ⟨a, ha, hle⟩ := hfit
    exact ⟨a, List.mem_append_right A ha, hle⟩

/-- `free` returns, and puts the block back. -/
theorem free (h : Inv s L (bp :: U)) {ap : ℕ} (fuel : ℕ) (hap : header ap = bp) :
    (L.length ≤ fuel → ∃ t, Malloc.free fuel s ap = some t) ∧ ∀ t, Malloc.free fuel s ap = some t →
      (t.base = s.base ∧ t.top = s.top ∧ t.regions = s.regions ∧ t.live = s.live) ∧
      ∃ L', Inv t L' U ∧ (∀ a ∈ U, t.size a = s.size a) ∧ ∃ a ∈ L', s.size bp ≤ t.size a := by
  obtain ⟨A, p, B, hL, hp, hB⟩ := h.exists_place
  have hfound : ∀ n, L.length ≤ n → seek s.ptr (s.place bp) n s.freep = some p := fun n hn =>
    h.seek_place hL hp hB hn
  unfold Malloc.free
  dsimp only
  rw [hap]
  refine ⟨fun hn => ?_, fun t ht => ?_⟩
  · rw [hfound fuel hn]
    exact ⟨_, rfl⟩
  · cases hseek : seek s.ptr (s.place bp) fuel s.freep with
    | none =>
      rw [hseek] at ht
      cases ht
    | some c =>
      have hmono := seek_mono hseek (le_max_left fuel L.length)
      rw [hfound _ (le_max_right fuel L.length)] at hmono
      cases hmono
      rw [hseek] at ht
      cases ht
      exact ⟨release_frame s bp p, h.release hL hp hB⟩

/-! ## Taking a block -/

section Take

variable {prevp : ℕ} (h : Inv s L U)

include h

theorem exists_next (hprev : prevp ∈ L) (hp : s.ptr prevp ≠ s.base) :
    ∃ A B, L = A ++ prevp :: s.ptr prevp :: B := by
  obtain ⟨A, B, hL⟩ := List.append_of_mem hprev
  obtain ⟨-, hptr⟩ | ⟨y, B', rfl, hptr, -⟩ := h.ptr_eq hL
  · exact absurd hptr hp
  · exact ⟨A, B', hptr ▸ hL⟩

/-- The whole block is taken. -/
theorem take_all (hL : L = A ++ prevp :: s.ptr prevp :: B) (hp : s.ptr prevp ≠ s.base) :
    Inv { s with ptr := update s.ptr prevp (s.ptr (s.ptr prevp)), freep := prevp } (A ++ prevp :: B)
      (s.ptr prevp :: U) := by
  have hsorted := h.sorted
  have hring := h.ring
  have hhead := h.head
  rw [hL] at hsorted hring hhead
  obtain ⟨-, hsorted', hcross⟩ := List.pairwise_append.mp hsorted
  obtain ⟨hprev, -⟩ := List.pairwise_cons.mp hsorted'
  obtain ⟨-, -, hrest⟩ := hring.split
  refine ⟨h.base_pos, ?_, ?_, hsorted.sublist ?_, List.mem_append_right A List.mem_cons_self,
    h.base_size,
    fun a ha hne => h.pos a ?_ hne, ?_, fun x => ?_, h.low, h.high, h.base_lt, h.top_lt⟩
  · refine hring.splice (fun a ha => ?_) ?_
    · exact update_of_ne (hcross a ha prevp List.mem_cons_self).ne _ _
    · dsimp only
      rw [update_self]
      exact hrest.congr fun b hb => update_of_ne (hprev b (List.mem_cons_of_mem _ hb)).ne' _ _
  · cases A <;> exact hhead
  · exact ((List.sublist_cons_self _ B).cons_cons prevp).append_left A
  · rw [hL]
    simp only [List.mem_append, List.mem_cons] at ha ⊢
    tauto
  · exact fun hmem => (List.mem_cons.mp hmem).elim (fun heq => hp heq.symm) h.used
  · have htiles := h.tiles x
    rw [hL] at htiles
    simp only [Heap.cover_append, Heap.cover_cons] at htiles ⊢
    show s.cover x A + (covers x prevp (s.size prevp) + s.cover x B) +
      (covers x (s.ptr prevp) (s.size (s.ptr prevp)) + s.cover x U) = if s.obtained x then 1 else 0
    omega

/-- Only the end of the block is taken, `n` units of it. -/
theorem take_end (hL : L = A ++ prevp :: p :: B) (hp : p ≠ s.base) (hn : 1 ≤ n) (hlt : n < s.size p)
    (hq : q = p + 8 * (s.size p - n)) :
    Inv { s with
      size := update (update s.size p (s.size p - n)) q n, freep := prevp } L (q :: U) := by
  have hpmem : p ∈ L ++ U := by rw [hL]; simp
  have hpq : q ≠ p := by omega
  have hbase := h.base_lt_of_mem hpmem hp
  have hqin : s.inBlock q p := by unfold Heap.inBlock; omega
  have hqnot : ∀ a ∈ L ++ U, a ≠ q := by
    rintro a ha rfl
    exact hpq (h.eq_of_inBlock ha hpmem (h.inBlock_self ha (by omega)) hqin)
  have hsize : ∀ {a}, a ≠ q → a ≠ p →
      update (update s.size p (s.size p - n)) q n a = s.size a := fun haq hap => by
    rw [update_of_ne haq, update_of_ne hap]
  have hsizep : update (update s.size p (s.size p - n)) q n p = s.size p - n := by
    rw [update_of_ne hpq.symm, update_self]
  have hsizeq : update (update s.size p (s.size p - n)) q n q = n :=
    update_self _ _ _
  refine ⟨h.base_pos, h.ring, h.head, h.sorted, ?_, ?_, fun a ha hne => ?_, ?_, fun x => ?_,
    h.low, h.high, h.base_lt, h.top_lt⟩
  · rw [hL]
    simp
  · exact (hsize (by omega) (Ne.symm hp)).trans h.base_size
  · dsimp only
    by_cases haq : a = q
    · rw [haq, hsizeq]
      exact hn
    by_cases hap : a = p
    · rw [hap, hsizep]
      omega
    rw [hsize haq hap]
    refine h.pos a ?_ hne
    simp only [List.mem_append, List.mem_cons] at ha ⊢
    tauto
  · have hbq : s.base ≠ q := by omega
    exact fun hmem => (List.mem_cons.mp hmem).elim hbq h.used
  · -- The block is cut in two; no other block is at either address.
    have hsorted := h.sorted
    rw [hL] at hsorted
    obtain ⟨-, hsorted', hcross⟩ := List.pairwise_append.mp hsorted
    obtain ⟨hprev, hpB⟩ := List.pairwise_cons.mp hsorted'
    have hA : ∀ a ∈ A, a ≠ p := fun a ha => (hcross a ha p (by simp)).ne
    have hB : ∀ a ∈ B, a ≠ p := fun a ha => ((List.pairwise_cons.mp hpB).1 a ha).ne'
    have hU : ∀ a ∈ U, a ≠ p := fun a ha heq => h.notUsed (a := p) (by rw [hL]; simp) (heq ▸ ha)
    have hprevp : prevp ≠ p := (hprev p List.mem_cons_self).ne
    have htiles := h.tiles x
    have hcut := covers_add x p (s.size p - n) n
    rw [Nat.sub_add_cancel hlt.le, ← hq] at hcut
    have hcover : ∀ {l : List ℕ}, (∀ a ∈ l, a ∈ L ++ U) → (∀ a ∈ l, a ≠ p) →
        Heap.cover { s with size := update (update s.size p (s.size p - n)) q n,
                            freep := prevp } x l = s.cover x l := fun hl hlp =>
      Heap.cover_congr (fun a ha => hsize (hqnot a (hl a ha)) (hlp a ha)) x
    rw [hL] at htiles ⊢
    simp only [Heap.cover_append, Heap.cover_cons] at htiles ⊢
    rw [hcover (fun a ha => by rw [hL]; simp [ha]) hA,
      hcover (fun a ha => by rw [hL]; simp [ha]) hB,
      hcover (fun a ha => by simp [ha]) hU, hsize (hqnot prevp (by rw [hL]; simp)) hprevp,
      hsizep, hsizeq]
    show _ = if s.obtained x then 1 else 0
    omega

end Take

/-- **A block is taken out.** The pointer is behind the header of a new block of `n` units, and the
heap is in order with it. -/
theorem take {prevp : ℕ} (h : Inv s L U) (hprev : prevp ∈ L) (hn : 1 ≤ n)
    (hfit : n ≤ s.size (s.ptr prevp)) :
    ∃ c L', (s.take n prevp (s.ptr prevp)).1 = c + 8 ∧
    Inv (s.take n prevp (s.ptr prevp)).2 L' (c :: U) ∧ (s.take n prevp (s.ptr prevp)).2.size c = n ∧
      (∀ a ∈ U, (s.take n prevp (s.ptr prevp)).2.size a = s.size a) ∧
      (s.take n prevp (s.ptr prevp)).2.live = s.live := by
  have hp : s.ptr prevp ≠ s.base := by
    intro heq
    rw [heq, h.base_size] at hfit
    omega
  obtain ⟨A, B, hL⟩ := h.exists_next hprev hp
  have hpmem : s.ptr prevp ∈ L ++ U := by rw [hL]; simp
  unfold Heap.take
  by_cases heq : s.size (s.ptr prevp) = n
  · rw [if_pos heq]
    exact ⟨s.ptr prevp, A ++ prevp :: B, h.add_eq hpmem (by omega), h.take_all hL hp, heq,
      fun _ _ => rfl, rfl⟩
  · rw [if_neg heq]
    have hlt : n < s.size (s.ptr prevp) := by omega
    have hq : add (s.ptr prevp) (s.size (s.ptr prevp) - n) =
        s.ptr prevp + 8 * (s.size (s.ptr prevp) - n) := h.add_eq hpmem (by omega)
    have hinv := h.take_end hL hp hn hlt hq
    refine ⟨_, L, ?_, hinv, update_self _ _ _, fun a ha => ?_, rfl⟩
    · refine hinv.add_eq mem_used ?_
      dsimp only
      rwa [update_self]
    · have hane : a ≠ s.ptr prevp := fun heq => h.notUsed (a := s.ptr prevp)
        (by rw [hL]; simp) (heq ▸ ha)
      have haq : a ≠ add (s.ptr prevp) (s.size (s.ptr prevp) - n) := fun heq =>
        hinv.disjoint (heq ▸ ha)
      dsimp only
      rw [update_of_ne haq, update_of_ne hane]

end Inv

end Dockv6.Malloc
