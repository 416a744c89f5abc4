import Dockv6.Disk.Blocks

/-!
# The contents of a file

`readi` and `writei` on a file whose blocks are its own: a file is an array of bytes (`Img.byte`),
the loops go over the blocks of a range (`blocksOf`), and what other files hold does not change.
-/

namespace Dockv6.Disk

variable {s s' s1 : Img} {d d' d1 : Dinode} {taken : Set ℕ} {b bn off n m k : ℕ} {block : Block}
  {data : Bytes}

/-! ## The blocks of a range -/

/-- The data blocks that hold the `n` bytes from `off` on. -/
def blocksOf (off n : ℕ) : Finset ℕ :=
  if n = 0 then ∅ else Finset.Icc (off / BSIZE) ((off + n - 1) / BSIZE)

theorem mem_blocksOf : bn ∈ blocksOf off n ↔ ∃ pos, off ≤ pos ∧ pos < off + n ∧
    pos / BSIZE = bn := by
  unfold blocksOf
  split_ifs with hn
  · exact iff_of_false (Finset.notMem_empty bn) fun ⟨pos, hlo, hhi, _⟩ => by omega
  · rw [Finset.mem_Icc]
    refine ⟨fun ⟨hlo, hhi⟩ => ⟨max off (bn * BSIZE), ?_⟩, fun ⟨pos, hlo, hhi, heq⟩ => ?_⟩
    · unfold BSIZE at *
      omega
    · unfold BSIZE at *
      omega

theorem blocksOf_eq_insert (off : ℕ) (hn : 0 < n) (hm : m = min n (BSIZE - off % BSIZE)) :
    blocksOf off n = insert (off / BSIZE) (blocksOf (off + m) (n - m)) ∧
      off / BSIZE ∉ blocksOf (off + m) (n - m) := by
  have hrest : ∀ x, x ∈ blocksOf (off + m) (n - m) ↔ off / BSIZE < x ∧ x ∈ blocksOf off n := by
    intro x
    rw [mem_blocksOf, mem_blocksOf]
    constructor
    · rintro ⟨pos, hlo, hhi, rfl⟩
      refine ⟨?_, pos, ?_, ?_, rfl⟩ <;> unfold BSIZE at * <;> omega
    · rintro ⟨hlt, pos, hlo, hhi, rfl⟩
      refine ⟨pos, ?_, ?_, rfl⟩ <;> unfold BSIZE at * <;> omega
  refine ⟨Finset.ext fun x => ?_, fun hin => absurd ((hrest _).mp hin).1 (lt_irrefl _)⟩
  rw [Finset.mem_insert, hrest]
  constructor
  · intro hx
    obtain ⟨pos, hlo, hhi, rfl⟩ := mem_blocksOf.mp hx
    obtain heq | hlt := (Nat.div_le_div_right hlo : off / BSIZE ≤ pos / BSIZE).eq_or_lt
    · exact .inl heq.symm
    · exact .inr ⟨hlt, hx⟩
  · rintro (rfl | ⟨-, hx⟩)
    · exact mem_blocksOf.mpr ⟨off, le_rfl, by omega, rfl⟩
    · exact hx

theorem Img.need_mono {B C : Finset ℕ} (h : B ⊆ C) : s.need d B ≤ s.need d C := by
  unfold need
  have hcard := Finset.card_le_card (Finset.filter_subset_filter (fun x => s.loc d (.data x) = 0) h)
  have hmono : (if s.loc d .indirect = 0 ∧ ∃ x ∈ B, NDIRECT ≤ x then 1 else 0) ≤
      if s.loc d .indirect = 0 ∧ ∃ x ∈ C, NDIRECT ≤ x then 1 else 0 := by
    split_ifs with h1 h2
    · exact le_rfl
    · obtain ⟨hind, x, hx, hle⟩ := h1
      exact absurd ⟨hind, x, h hx, hle⟩ h2
    · exact Nat.zero_le 1
    · exact le_rfl
  omega

/-! ## Writing a block -/

namespace Own

variable (hown : Own s taken d) (hb : s.loc d (.data bn) = b) (hne : b ≠ 0)
include hown hb hne

omit hne in
theorem write_loc (p : Place) : (s.write b block).loc d p = s.loc d p := by
  refine Img.loc_congr (fun hind => Img.write_blk_of_ne fun heq => ?_) p
  have hplace : Place.indirect = .data bn := hown.inj (heq.trans hb.symm) hind
  cases hplace

theorem write_used {c : ℕ} (hc : c < s.sb.size) : (s.write b block).used c = s.used c := by
  have hbit : s.sb.bblock c ≠ b := fun heq => hown.apart (hb ▸ hne) (hb ▸ heq ▸ hown.bitmap c hc)
  rw [Img.used, Img.used, Img.write_sb, Img.write_blk_of_ne hbit]

theorem write_grows : Grows taken s d (s.write b block) d where
  own :=
    { inj := fun {p q} heq hp => by
        rw [hown.write_loc hb] at heq hp
        rw [hown.write_loc hb] at heq
        exact hown.inj heq hp
      used := fun {p} hp => by
        rw [hown.write_loc hb] at hp ⊢
        rw [hown.write_used hb hne (hown.lt hp), hown.used hp]
      lt := fun {p} hp => by
        rw [hown.write_loc hb] at hp ⊢
        exact hown.lt hp
      apart := fun {p} hp => by
        rw [hown.write_loc hb] at hp ⊢
        exact hown.apart hp
      taken_used := fun c hc hlt => by rw [hown.write_used hb hne hlt, hown.taken_used c hc hlt]
      bitmap := hown.bitmap
      zero := hown.zero
      size := hown.size }
  sb := rfl
  keeps p _ := hown.write_loc hb p
  blk c hc _ := Img.write_blk_of_ne fun heq => hown.apart (hb ▸ hne) (hb ▸ heq ▸ hc)
  used c hc hne' := by
    rw [hown.write_used hb hne hc]
    refine ⟨.inl, fun h => h.elim id fun ⟨p, hp, heq⟩ => ?_⟩
    rw [hown.write_loc hb, hp] at heq
    exact absurd heq.symm hne'
  core := rfl

theorem write_byte (pos : ℕ) :
    (s.write b block).byte d pos = if pos / BSIZE = bn then block (pos % BSIZE)
    else s.byte d pos := by
  unfold Img.byte
  rw [hown.write_loc hb]
  split_ifs with h0 hpos hpos
  · rw [hpos, hb] at h0
    exact absurd h0 hne
  · rfl
  · rw [hpos, hb, Img.write_blk_self]
  · rw [Img.write_blk_of_ne fun heq => hpos ?_]
    exact Place.data.inj (hown.inj (heq.trans hb.symm) h0)

omit hne in
theorem write_need (B : Finset ℕ) : (s.write b block).need d B = s.need d B := by
  unfold Img.need
  simp only [hown.write_loc hb]

/-- Bytes are written in a block. -/
theorem write_splice {l : Bytes} (hbn : off / BSIZE = bn)
    (hl : l.length ≤ BSIZE - off % BSIZE) (pos : ℕ) :
    (s.write b (splice (s.blk b) (off % BSIZE) l)).byte d pos =
      if off ≤ pos ∧ pos < off + l.length then l.getD (pos - off) 0 else s.byte d pos := by
  rw [hown.write_byte hb hne, splice]
  split_ifs with hblock hin hpos hpos hpos
  · congr 1
    unfold BSIZE at *
    omega
  · exact absurd hpos (by unfold BSIZE at *; omega)
  · exact absurd hin (by unfold BSIZE at *; omega)
  · rw [Img.byte, hblock, hb, if_neg hne]
  · exact absurd hblock (by unfold BSIZE at *; omega)
  · rfl

theorem write_freeCount : (s.write b block).freeCount = s.freeCount := by
  unfold Img.freeCount
  refine congrArg Finset.card (Finset.filter_congr fun c hc => ?_)
  rw [hown.write_used hb hne (Finset.mem_range.mp hc)]

end Own

/-- The bytes `data` have been written at `off`. -/
structure Written (taken : Set ℕ) (s : Img) (d : Dinode) (off : ℕ) (data : Bytes) (s' : Img)
    (d' : Dinode) : Prop extends Grows taken s d s' d' where
  byte : ∀ pos, s'.byte d' pos =
    if off ≤ pos ∧ pos < off + data.length then data.getD (pos - off) 0 else s.byte d pos
  allocated : ∀ bn ∈ blocksOf off data.length, s'.loc d' (.data bn) ≠ 0

/-- The loop of `writei`. -/
theorem writeRounds_written (hown : Own s taken d) (hlen : data.length ≤ k)
    (hmax : off + data.length ≤ MAXFILE * BSIZE)
    (hfree : s.need d (blocksOf off data.length) ≤ s.freeCount) :
    Yields (writeRounds k s d off data) fun (d', s') => Written taken s d off data s' d' := by
  induction k generalizing s d off data with
  | zero =>
    obtain rfl : data = [] := List.length_eq_zero_iff.mp (by omega)
    exact .pure ⟨.refl hown, fun pos => (if_neg (by simp)).symm,
      fun bn hbn => by simp [blocksOf] at hbn⟩
  | succ k ih =>
    rw [writeRounds]
    refine .ite (fun hnil => ?_) fun hnil => ?_
    · subst hnil
      exact .pure ⟨.refl hown, fun pos => (if_neg (by simp)).symm,
        fun bn hbn => by simp [blocksOf] at hbn⟩
    have hpos : 0 < data.length := List.length_pos_iff.mpr hnil
    obtain ⟨hinsert, hnotMem⟩ := blocksOf_eq_insert off hpos rfl
    rw [hinsert] at hfree
    have hbn : off / BSIZE < MAXFILE := by
      unfold BSIZE at *
      omega
    obtain ⟨b, d1, s1, hbmap⟩ := bmap_returns hown hbn
      ((Img.need_mono (Finset.singleton_subset_iff.mpr (Finset.mem_insert_self _ _))).trans hfree)
    have hmapped := bmap_mapped hown hbmap
    obtain ⟨hloc, hne⟩ := hmapped.loc_self hown
    have hgrows := hmapped.grows hown
    refine .step hbmap ?_
    set m := min data.length (BSIZE - off % BSIZE) with hm
    set s2 := s1.write b (splice (s1.blk b) (off % BSIZE) (data.take m)) with hs2
    have hwrite : Grows taken s1 d1 s2 d1 := hgrows.own.write_grows hloc hne
    have hdrop : (data.drop m).length = data.length - m := List.length_drop
    have hm0 : 0 < m := by
      unfold BSIZE at *
      omega
    have hroom : s2.need d1 (blocksOf (off + m) (data.drop m).length) ≤ s2.freeCount := by
      rw [hgrows.own.write_need hloc, hgrows.own.write_freeCount hloc hne, hdrop]
      exact hmapped.need hown hnotMem hfree
    have hrest := ih hwrite.own (by omega) (by omega) hroom
    refine hrest.imp fun (d', s') hd' => ?_
    refine ⟨(hgrows.trans hwrite).trans hd'.toGrows, fun pos => ?_, fun bn hbn => ?_⟩
    · have htake : (data.take m).length = m := List.length_take_of_le (Nat.min_le_left _ _)
      have hround := hgrows.own.write_splice hloc hne rfl
        (htake.trans_le (Nat.min_le_right _ _)) pos
      rw [hd'.byte, hround, hmapped.byte hown, hdrop, htake]
      split_ifs with h1 h2 h2 h3 h3
      · rw [List.getD_eq_getElem?_getD, List.getD_eq_getElem?_getD, List.getElem?_drop]
        congr 2
        omega
      · exact absurd h2 (by omega)
      · rw [List.getD_eq_getElem?_getD, List.getD_eq_getElem?_getD,
          List.getElem?_take_of_lt (by omega)]
      · exact absurd h3 (by omega)
      · exact absurd h3 (by omega)
      · rfl
    · rw [hinsert, Finset.mem_insert] at hbn
      obtain rfl | hbn := hbn
      · rw [hd'.keeps _ (by rwa [hgrows.own.write_loc hloc, hloc]), hgrows.own.write_loc hloc, hloc]
        exact hne
      · exact hd'.allocated bn (by rwa [hdrop])

/-! ## Reading -/

theorem Img.lt_of_loc_ne_zero (h : s.loc d (.data bn) ≠ 0) : bn < MAXFILE := by
  by_contra hge
  refine h ?_
  rw [loc, if_neg (by unfold MAXFILE NDIRECT BSIZE at *; omega), if_neg fun h' => hge h'.1]

theorem bmap_present (h : s.loc d (.data bn) ≠ 0) :
    bmap s d bn = .ok (s.loc d (.data bn), d, s) := by
  have hlt := Img.lt_of_loc_ne_zero h
  unfold bmap
  split_ifs with hdirect hentry
  · rw [Img.loc_direct hdirect] at h ⊢
    rw [allocAddr, if_neg h]
  · have hle : NDIRECT ≤ bn := Nat.le_of_not_lt hdirect
    have hind : d.addr NDIRECT ≠ 0 := fun hz => h (Img.loc_none hle hz)
    rw [Img.loc_entry hle hlt hind] at h ⊢
    rw [allocAddr, if_neg hind]
    show (allocEntry s (d.addr NDIRECT) (bn - NDIRECT) >>= _) = _
    rw [allocEntry, if_neg h]
    rfl
  · unfold MAXFILE NINDIRECT NDIRECT BSIZE at *
    omega

/-- The loop of `readi` over blocks that are there. -/
theorem readRounds_eq (hn : n ≤ k) (hall : ∀ bn ∈ blocksOf off n, s.loc d (.data bn) ≠ 0) :
    readRounds k s d off n = .ok (slice (s.byte d) off n, d, s) := by
  induction k generalizing off n with
  | zero =>
    obtain rfl : n = 0 := by omega
    rfl
  | succ k ih =>
    rw [readRounds]
    split_ifs with hz
    · rw [hz]
      rfl
    have hpos : 0 < n := Nat.pos_of_ne_zero hz
    obtain ⟨hinsert, -⟩ := blocksOf_eq_insert off hpos rfl
    have hfirst := hall (off / BSIZE) (hinsert ▸ Finset.mem_insert_self _ _)
    rw [bmap_present hfirst]
    set m := min n (BSIZE - off % BSIZE) with hm
    have hm0 : 0 < m := by
      unfold BSIZE at *
      omega
    have hrest : readRounds k s d (off + m)
        (n - m) = .ok (slice (s.byte d) (off + m) (n - m), d, s) :=
      ih (by omega) fun bn hbn => hall bn (hinsert ▸ Finset.mem_insert_of_mem hbn)
    have hblock : slice (s.blk (s.loc d (.data (off / BSIZE)))) (off % BSIZE) m = slice
        (s.byte d) off m := by
      refine slice_congr fun j hj => ?_
      have hdiv : (off + j) / BSIZE = off / BSIZE := by
        unfold BSIZE at *
        omega
      have hmod : (off + j) % BSIZE = off % BSIZE + j := by
        unfold BSIZE at *
        omega
      rw [Img.byte, hdiv, hmod, if_neg hfirst]
    have hsum : n = m + (n - m) := by omega
    show (readRounds k s d (off + m) (n - m) >>= _) = _
    rw [hrest]
    show Except.ok (slice _ _ m ++ slice _ _ _, d, s) = _
    rw [hblock, ← slice_add, ← hsum]

end Dockv6.Disk
