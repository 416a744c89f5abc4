import Dockv6.Disk.Inode
import Dockv6.Foundations.Ensures

/-!
# The blocks of a file

A file has blocks for its data and one for the numbers of most of them (`Img.loc`). While a function
works on one file, all other blocks in use are set aside: the file's blocks are different ones,
marked in the bit map, and none of those (`Own`). `bmap` adds one block or two (`Gains`), and the
file still reads the same (`Gains.byte`).
-/

namespace Dockv6.Disk

variable {s s' s1 : Img} {d d' d1 : Dinode} {taken : Set ℕ} {b c k bn : ℕ} {data : Block}

/-- Where a file has a block: one of its data blocks, or the indirect block. -/
inductive Place
  | data (bn : ℕ)
  | indirect
  deriving DecidableEq

namespace Img

/-- The block that a file has at a place, `0` if none. -/
def loc (s : Img) (d : Dinode) : Place → ℕ
  | .indirect => d.addr NDIRECT
  | .data bn =>
    if bn < NDIRECT then d.addr bn
    else if bn < MAXFILE ∧ d.addr NDIRECT ≠ 0 then entry (s.blk (d.addr NDIRECT)) (bn - NDIRECT)
    else 0

/-- The byte at a position of a file. Where there is no block it is `0`. -/
def byte (s : Img) (d : Dinode) (pos : ℕ) : UInt8 :=
  if s.loc d (.data (pos / BSIZE)) = 0 then 0 else s.blk (s.loc d (.data (pos / BSIZE)))
    (pos % BSIZE)

/-- The number of free blocks. -/
def freeCount (s : Img) : ℕ := ((Finset.range s.sb.size).filter fun b => s.used b = false).card

@[simp] theorem write_sb : (s.write b data).sb = s.sb := rfl

@[simp] theorem write_log : (s.write b data).log = b :: s.log := rfl

theorem write_blk_self : (s.write b data).blk b = data := Function.update_self ..

theorem write_blk_of_ne (h : c ≠ b) : (s.write b data).blk c = s.blk c := Function.update_of_ne h ..

theorem loc_direct (h : bn < NDIRECT) : s.loc d (.data bn) = d.addr bn := if_pos h

theorem loc_entry (h : NDIRECT ≤ bn) (h' : bn < MAXFILE) (hind : d.addr NDIRECT ≠ 0) :
    s.loc d (.data bn) = entry (s.blk (d.addr NDIRECT)) (bn - NDIRECT) := by
  rw [loc, if_neg (by omega), if_pos ⟨h', hind⟩]

theorem loc_none (h : NDIRECT ≤ bn) (hind : d.addr NDIRECT = 0) : s.loc d (.data bn) = 0 := by
  rw [loc, if_neg (by omega), if_neg fun h => h.2 hind]

theorem loc_congr (hind : d.addr NDIRECT ≠ 0 → s'.blk (d.addr NDIRECT) = s.blk (d.addr NDIRECT))
    (p : Place) : s'.loc d p = s.loc d p := by
  cases p with
  | indirect => rfl
  | data bn =>
    rw [loc, loc]
    split_ifs with h1 h2
    · rfl
    · rw [hind h2.2]
    · rfl

end Img

/-- The blocks of the file are different blocks in use, and none of them is in `taken`, as the bit
map and all others that are in use are. -/
structure Own (s : Img) (taken : Set ℕ) (d : Dinode) : Prop where
  inj : ∀ {p q}, s.loc d p = s.loc d q → s.loc d p ≠ 0 → p = q
  used : ∀ {p}, s.loc d p ≠ 0 → s.used (s.loc d p) = true
  lt : ∀ {p}, s.loc d p ≠ 0 → s.loc d p < s.sb.size
  apart : ∀ {p}, s.loc d p ≠ 0 → s.loc d p ∉ taken
  taken_used : ∀ b ∈ taken, b < s.sb.size → s.used b = true
  bitmap : ∀ b < s.sb.size, s.sb.bblock b ∈ taken
  zero : 0 ∈ taken
  size : s.sb.size ≤ 2 ^ 32

/-! ## Allocation -/

/-- A block is allocated. -/
structure Allocs (s : Img) (b : ℕ) (s' : Img) : Prop where
  lt : b < s.sb.size
  free : s.used b = false
  sb : s'.sb = s.sb
  zero : s'.blk b = fun _ => 0
  blk : ∀ c, c ≠ b → c ≠ s.sb.bblock b → s'.blk c = s.blk c
  used : ∀ c, s.sb.bblock c ≠ b → s'.used c = (s.used c || decide (b = c))
  log : s'.log = b :: s.sb.bblock b :: s.log

theorem balloc_eq_ok (h : balloc s = .ok (b, s')) : Allocs s b s' := by
  unfold balloc at h
  split at h
  · cases h
  · rename_i b1 hfind
    cases h
    have hfree : s.used b = false := by simpa using List.find?_some hfind
    refine ⟨List.mem_range.mp (List.mem_of_find?_eq_some hfind), hfree, rfl, Img.write_blk_self,
      fun c hb hbit => ?_, fun c hc => ?_, rfl⟩
    · rw [Img.write_blk_of_ne hb, Img.write_blk_of_ne hbit]
    · unfold Img.used
      rw [Img.write_sb, Img.write_sb, Img.write_blk_of_ne hc]
      by_cases hblock : s.sb.bblock c = s.sb.bblock b
      · have hbit : b = c ↔ b % BPB = c % BPB := by
          refine ⟨fun h => h ▸ rfl, fun h => ?_⟩
          unfold Superblock.bblock BPB BSIZE at *
          omega
        rw [hblock, Img.write_blk_self, getBit_setBit]
        simp only [hbit]
      · have hne : b ≠ c := fun h => hblock (h ▸ rfl)
        rw [Img.write_blk_of_ne hblock, decide_eq_false hne, Bool.or_false]

theorem balloc_returns (h : 0 < s.freeCount) : ∃ b s', balloc s = .ok (b, s') := by
  obtain ⟨b, hb⟩ := Finset.card_pos.mp h
  obtain ⟨hlt, hfree⟩ := Finset.mem_filter.mp hb
  unfold balloc
  split
  · rename_i hnone
    have := List.find?_eq_none.mp hnone b (List.mem_range.mpr (Finset.mem_range.mp hlt))
    rw [hfree] at this
    exact absurd rfl this
  · exact ⟨_, _, rfl⟩

namespace Allocs

/-- No block that is set aside is allocated. -/
theorem notMem (h : Allocs s b s') (hown : Own s taken d) : b ∉ taken := fun hin =>
  Bool.false_ne_true (h.free.symm.trans (hown.taken_used b hin h.lt))

theorem bblock_ne (h : Allocs s b s') (hown : Own s taken d) (hc : c < s.sb.size) :
    s.sb.bblock c ≠ b := fun heq =>
  h.notMem hown (heq ▸ hown.bitmap c hc)

theorem loc_ne (h : Allocs s b s') (hown : Own s taken d) {p : Place} (hp : s.loc d p ≠ 0) :
    s.loc d p ≠ b := fun heq =>
  Bool.false_ne_true (h.free.symm.trans (heq ▸ hown.used hp))

theorem loc_ne_bblock (h : Allocs s b s') (hown : Own s taken d) {p : Place} (hp : s.loc d p ≠ 0) :
    s.loc d p ≠ s.sb.bblock b := fun heq => hown.apart hp (heq ▸ hown.bitmap b h.lt)

/-- The blocks of the file hold what they held. -/
theorem blk_loc (h : Allocs s b s') (hown : Own s taken d) {p : Place} (hp : s.loc d p ≠ 0) :
    s'.blk (s.loc d p) = s.blk (s.loc d p) := h.blk _ (h.loc_ne hown hp) (h.loc_ne_bblock hown hp)

end Allocs

/-- Is the place an entry of the indirect block? -/
def Place.isEntry : Place → Bool
  | .data bn => NDIRECT ≤ bn
  | .indirect => false

/-- The file gets the block `b` at a place where it had none. -/
structure Gains (s : Img) (d : Dinode) (p : Place) (b : ℕ) (s' : Img) (d' : Dinode) : Prop where
  lt : b < s.sb.size
  free : s.used b = false
  sb : s'.sb = s.sb
  zero : s'.blk b = fun _ => 0
  blk : ∀ c, c ≠ b → c ≠ s.sb.bblock b → (s.loc d .indirect ≠ 0 → c ≠ s.loc d .indirect) →
    s'.blk c = s.blk c
  used : ∀ c < s.sb.size, s'.used c = (s.used c || decide (b = c))
  none : s.loc d p = 0
  loc : ∀ q, s'.loc d' q = if q = p then b else s.loc d q
  core : d' = { d with addrs := d'.addrs }
  log : ∀ c, c ∈ s'.log ↔ c = b ∨ c = s.sb.bblock b ∨ p.isEntry ∧ c = s.loc d .indirect ∨ c ∈ s.log

namespace Gains

variable {p : Place}

theorem ne_zero (h : Gains s d p b s' d') (hown : Own s taken d) : b ≠ 0 := fun heq =>
  Bool.false_ne_true (h.free.symm.trans (hown.taken_used b (heq ▸ hown.zero) h.lt))

theorem notMem (h : Gains s d p b s' d') (hown : Own s taken d) : b ∉ taken := fun hin =>
  Bool.false_ne_true (h.free.symm.trans (hown.taken_used b hin h.lt))

theorem loc_ne (h : Gains s d p b s' d') (hown : Own s taken d) {q : Place} (hq : s.loc d q ≠ 0) :
    s.loc d q ≠ b :=
  fun heq => Bool.false_ne_true (h.free.symm.trans (heq ▸ hown.used hq))

theorem keeps (h : Gains s d p b s' d') {q : Place} (hq : s.loc d q ≠ 0) :
    s'.loc d' q = s.loc d q := by
  rw [h.loc, if_neg]
  rintro rfl
  exact hq h.none

theorem own (h : Gains s d p b s' d') (hown : Own s taken d) : Own s' taken d' where
  inj {q r} heq hne := by
    rw [h.loc] at hne
    rw [h.loc, h.loc] at heq
    split_ifs at heq hne with hq hr hr
    · rw [hq, hr]
    · exact absurd heq.symm (h.loc_ne hown (heq ▸ h.ne_zero hown))
    · exact absurd heq (h.loc_ne hown hne)
    · exact hown.inj heq hne
  used {q} hne := by
    rw [h.loc] at hne ⊢
    split_ifs at hne ⊢
    · rw [h.used b h.lt, decide_eq_true rfl, Bool.or_true]
    · rw [h.used _ (hown.lt hne), hown.used hne, Bool.true_or]
  lt {q} hne := by
    rw [h.loc] at hne ⊢
    rw [h.sb]
    split_ifs at hne ⊢
    · exact h.lt
    · exact hown.lt hne
  apart {q} hne := by
    rw [h.loc] at hne ⊢
    split_ifs at hne ⊢
    · exact h.notMem hown
    · exact hown.apart hne
  taken_used c hc hlt := by
    rw [h.sb] at hlt
    rw [h.used c hlt, hown.taken_used c hc hlt, Bool.true_or]
  bitmap c hc := by
    rw [h.sb] at hc ⊢
    exact hown.bitmap c hc
  zero := hown.zero
  size := h.sb ▸ hown.size

/-- The data blocks hold what they held. -/
theorem blk_data (h : Gains s d p b s' d') (hown : Own s taken d) (hne : s.loc d (.data bn) ≠ 0) :
    s'.blk (s.loc d (.data bn)) = s.blk (s.loc d (.data bn)) := by
  refine h.blk _ (h.loc_ne hown hne) (fun heq => ?_) fun _ heq => ?_
  · exact hown.apart hne (heq ▸ hown.bitmap b h.lt)
  · cases hown.inj heq hne

/-- The file reads the same: a new block is zero. -/
theorem byte (h : Gains s d p b s' d') (hown : Own s taken d) (pos : ℕ) :
    s'.byte d' pos = s.byte d pos := by
  unfold Img.byte
  by_cases hne : s.loc d (.data (pos / BSIZE)) = 0
  · rw [if_pos hne, h.loc]
    split_ifs
    · rfl
    · rw [h.zero]
    · rfl
  · rw [h.keeps hne, if_neg hne, if_neg hne, h.blk_data hown hne]

theorem blk_taken (h : Gains s d p b s' d') (hown : Own s taken d) (hc : c ∈ taken)
    (hbit : ∀ x < s.sb.size, s.sb.bblock x ≠ c) : s'.blk c = s.blk c := by
  exact h.blk c (fun heq => h.notMem hown (heq ▸ hc))
      (fun heq => hbit b h.lt heq.symm) fun hne heq =>
    hown.apart hne (heq ▸ hc)

theorem freeCount (h : Gains s d p b s' d') : s'.freeCount + 1 = s.freeCount := by
  have hmem : b ∈ (Finset.range s.sb.size).filter fun c => s.used c = false :=
    Finset.mem_filter.mpr ⟨Finset.mem_range.mpr h.lt, h.free⟩
  have herase : ((Finset.range s'.sb.size).filter fun c => s'.used c = false) =
      ((Finset.range s.sb.size).filter fun c => s.used c = false).erase b := by
    ext c
    rw [Finset.mem_erase, Finset.mem_filter, Finset.mem_filter, Finset.mem_range,
      Finset.mem_range, h.sb]
    constructor
    · rintro ⟨hc, hused⟩
      rw [h.used c hc, Bool.or_eq_false_iff, decide_eq_false_iff_not] at hused
      exact ⟨fun heq => hused.2 heq.symm, hc, hused.1⟩
    · rintro ⟨hne, hc, hused⟩
      rw [h.used c hc, hused, decide_eq_false fun heq => hne heq.symm]
      exact ⟨hc, rfl⟩
  rw [Img.freeCount, Img.freeCount, herase, Finset.card_erase_add_one hmem]

end Gains

section Attach

variable (h : Allocs s b s') (hown : Own s taken d)
include h hown

/-- The block is entered in the dinode, as a data block. -/
theorem Allocs.gains_direct (hk : k < NDIRECT) (hnone : d.addr k = 0) :
    Gains s d (.data k) b s' (d.setAddr k b) where
  lt := h.lt
  free := h.free
  sb := h.sb
  zero := h.zero
  blk c hb hbit _ := h.blk c hb hbit
  used c hc := h.used c (h.bblock_ne hown hc)
  none := by rw [Img.loc_direct hk, hnone]
  loc q := by
    have hind : (d.setAddr k b).addr NDIRECT = d.addr NDIRECT := by
      rw [Dinode.addr_setAddr hk.le le_rfl, if_neg hk.ne']
    cases q with
    | indirect => exact hind
    | data bn =>
      by_cases hbn : bn < NDIRECT
      · rw [Img.loc_direct hbn, Img.loc_direct hbn, Dinode.addr_setAddr hk.le hbn.le]
        simp only [Place.data.injEq]
      · have hsame : s'.loc (d.setAddr k b) (.data bn) = s'.loc d (.data bn) := by
          rw [Img.loc, Img.loc, if_neg hbn, if_neg hbn, hind]
        rw [hsame, if_neg (by rintro ⟨⟩; exact hbn hk)]
        exact Img.loc_congr (fun hne => h.blk_loc hown (p := .indirect) hne) _
  core := rfl
  log c := by
    have hentry : (Place.data k).isEntry = false := decide_eq_false (by omega)
    simp [h.log, hentry]

/-- The block becomes the indirect block. -/
theorem Allocs.gains_indirect (hnone : d.addr NDIRECT = 0) :
    Gains s d .indirect b s' (d.setAddr NDIRECT b) where
  lt := h.lt
  free := h.free
  sb := h.sb
  zero := h.zero
  blk c hb hbit _ := h.blk c hb hbit
  used c hc := h.used c (h.bblock_ne hown hc)
  none := hnone
  loc q := by
    have hind : (d.setAddr NDIRECT b).addr NDIRECT = b := by
      rw [Dinode.addr_setAddr le_rfl le_rfl, if_pos rfl]
    cases q with
    | indirect => exact hind
    | data bn =>
      rw [if_neg nofun]
      by_cases hbn : bn < NDIRECT
      · rw [Img.loc_direct hbn, Img.loc_direct hbn, Dinode.addr_setAddr le_rfl hbn.le,
          if_neg hbn.ne]
      · rw [Img.loc_none (Nat.le_of_not_lt hbn) hnone, Img.loc, if_neg hbn, hind]
        split_ifs
        · rw [h.zero]
          exact getLe_zero fun _ _ _ => rfl
        · rfl
  core := rfl
  log c := by simp [h.log, Place.isEntry]

/-- The block is entered in the indirect block. -/
theorem Allocs.gains_entry (hbn : NDIRECT ≤ bn) (hbn' : bn < MAXFILE) (hind : d.addr NDIRECT ≠ 0)
    (hnone : s.loc d (.data bn) = 0) :
    Gains s d (.data bn) b
      (s'.write (d.addr NDIRECT) (putLe (s'.blk (d.addr NDIRECT)) (4 * (bn - NDIRECT)) 4 b)) d where
  lt := h.lt
  free := h.free
  sb := h.sb
  zero := by
    have hne : b ≠ d.addr NDIRECT := (h.loc_ne hown (p := .indirect) hind).symm
    rw [Img.write_blk_of_ne hne, h.zero]
  blk c hb hbit hc := by
    have hne : c ≠ d.addr NDIRECT := hc hind
    rw [Img.write_blk_of_ne hne]
    exact h.blk c hb hbit
  used c hc := by
    have hout : d.addr NDIRECT ∉ taken := hown.apart (p := .indirect) hind
    have hne : s.sb.bblock c ≠ d.addr NDIRECT := fun heq => hout (heq ▸ hown.bitmap c hc)
    rw [← h.used c (h.bblock_ne hown hc), Img.used, Img.used, Img.write_sb, h.sb,
      Img.write_blk_of_ne hne]
  none := hnone
  loc q := by
    have hblk : s'.blk (d.addr NDIRECT) = s.blk (d.addr NDIRECT) :=
      h.blk_loc hown (p := .indirect) hind
    cases q with
    | indirect => rfl
    | data x =>
      by_cases hx : x < NDIRECT
      · rw [Img.loc_direct hx, Img.loc_direct hx, if_neg (by rintro ⟨⟩; omega)]
      · by_cases hx' : x < MAXFILE
        · rw [Img.loc_entry (Nat.le_of_not_lt hx) hx' hind,
            Img.loc_entry (Nat.le_of_not_lt hx) hx' hind, Img.write_blk_self, hblk]
          unfold entry
          split_ifs with heq
          · cases heq
            have hlt : b < 256 ^ 4 := h.lt.trans_le hown.size
            rw [getLe_putLe, Nat.mod_eq_of_lt hlt]
          · have hne : x ≠ bn := fun h => heq (h ▸ rfl)
            exact getLe_putLe_of_apart (by omega)
        · have hout : ∀ t : Img, t.loc d (.data x) = 0 := fun t => by
            rw [Img.loc, if_neg hx, if_neg fun h => hx' h.1]
          rw [hout, hout, if_neg (by rintro ⟨⟩; exact hx' hbn')]
  core := rfl
  log c := by
    have hentry : (Place.data bn).isEntry = true := decide_eq_true hbn
    rw [Img.write_log, h.log, hentry]
    simp only [List.mem_cons, true_and, Img.loc]
    tauto

end Attach

/-! ## The blocks of a file, as `bmap` finds them -/

/-- What `bmap` does: the block is there, or it is allocated, after the indirect block if that is
missing. -/
inductive Mapped (s : Img) (d : Dinode) (bn : ℕ) : ℕ → Img → Dinode → Prop
  | present (h : s.loc d (.data bn) ≠ 0) : Mapped s d bn (s.loc d (.data bn)) s d
  | one {b : ℕ} {s' : Img} {d' : Dinode} (h : Gains s d (.data bn) b s' d')
      (hind : NDIRECT ≤ bn → s.loc d .indirect ≠ 0) : Mapped s d bn b s' d'
  | two {ind b : ℕ} {s1 s' : Img} {d1 d' : Dinode} (hbn : NDIRECT ≤ bn)
      (h1 : Gains s d .indirect ind s1 d1)
      (h : Gains s1 d1 (.data bn) b s' d') : Mapped s d bn b s' d'

theorem allocAddr_gains (hown : Own s taken d) (hk : k < NDIRECT)
    (h : allocAddr s d k = .ok (b, d', s')) : Mapped s d k b s' d' := by
  unfold allocAddr at h
  split_ifs at h with hnone
  · obtain ⟨⟨b1, s1⟩, halloc, h⟩ := bind_eq_ok.mp h
    cases h
    exact .one ((balloc_eq_ok halloc).gains_direct hown hk hnone) fun hle => absurd hle (by omega)
  · cases h
    rw [← Img.loc_direct (s := s) hk] at hnone ⊢
    exact .present hnone

theorem allocEntry_gains (hown : Own s taken d) (hbn : NDIRECT ≤ bn) (hbn' : bn < MAXFILE)
    (hind : d.addr NDIRECT ≠ 0) (h : allocEntry s (d.addr NDIRECT) (bn - NDIRECT) = .ok (b, s')) :
    (s.loc d (.data bn) = b ∧ b ≠ 0 ∧ s' = s) ∨ Gains s d (.data bn) b s' d := by
  have hentry := Img.loc_entry (s := s) hbn hbn' hind
  unfold allocEntry at h
  rw [← hentry] at h
  split_ifs at h with hz
  · obtain ⟨⟨b1, s2⟩, halloc, h⟩ := bind_eq_ok.mp h
    cases h
    exact .inr ((balloc_eq_ok halloc).gains_entry hown hbn hbn' hind hz)
  · cases h
    exact .inl ⟨rfl, hz, rfl⟩

theorem bmap_mapped (hown : Own s taken d) (h : bmap s d bn = .ok (b, d', s')) :
    Mapped s d bn b s' d' := by
  unfold bmap at h
  split_ifs at h with hbn hbn'
  · exact allocAddr_gains hown hbn h
  · have hle : NDIRECT ≤ bn := Nat.le_of_not_lt hbn
    have hlt : bn < MAXFILE := by
      unfold MAXFILE NINDIRECT NDIRECT BSIZE at *
      omega
    obtain ⟨⟨ind, d1, s1⟩, haddr, h⟩ := bind_eq_ok.mp h
    obtain ⟨⟨b1, s2⟩, hentry, h⟩ := bind_eq_ok.mp h
    cases h
    unfold allocAddr at haddr
    split_ifs at haddr with hnone
    · obtain ⟨⟨ind1, s3⟩, halloc, haddr⟩ := bind_eq_ok.mp haddr
      cases haddr
      have h1 := (balloc_eq_ok halloc).gains_indirect hown hnone
      have hind : (d.setAddr NDIRECT ind).addr NDIRECT = ind := by
        rw [Dinode.addr_setAddr le_rfl le_rfl, if_pos rfl]
      have hne := h1.ne_zero hown
      obtain ⟨hloc, hb, -⟩ | h2 :=
        allocEntry_gains (h1.own hown) hle hlt (by rwa [hind]) (by rw [hind]; exact hentry)
      · rw [h1.loc, if_neg nofun, Img.loc_none hle hnone] at hloc
        exact absurd hloc.symm hb
      · exact .two hle h1 h2
    · cases haddr
      obtain ⟨rfl, hb, rfl⟩ | h1 := allocEntry_gains hown hle hlt hnone hentry
      · exact .present hb
      · exact .one h1 fun _ => hnone

/-- What a function that works on a file may change: the file keeps its blocks and gets new ones,
and what is set aside stays as it is. -/
structure Grows (taken : Set ℕ) (s : Img) (d : Dinode) (s' : Img) (d' : Dinode) : Prop where
  own : Own s' taken d'
  sb : s'.sb = s.sb
  keeps : ∀ p, s.loc d p ≠ 0 → s'.loc d' p = s.loc d p
  blk : ∀ c ∈ taken, (∀ x < s.sb.size, s.sb.bblock x ≠ c) → s'.blk c = s.blk c
  used : ∀ c < s.sb.size, c ≠ 0 →
    (s'.used c = true ↔ s.used c = true ∨ ∃ p, s.loc d p = 0 ∧ s'.loc d' p = c)
  core : d' = { d with addrs := d'.addrs }

namespace Grows

theorem refl (hown : Own s taken d) : Grows taken s d s d where
  own := hown
  sb := rfl
  keeps _ _ := rfl
  blk _ _ _ := rfl
  used _ _ hne := ⟨.inl, fun h => h.elim id fun ⟨_, hp, heq⟩ => absurd (heq.symm.trans hp) hne⟩
  core := rfl

theorem trans (h : Grows taken s d s1 d1) (h' : Grows taken s1 d1 s' d') :
    Grows taken s d s' d' where
  own := h'.own
  sb := h'.sb.trans h.sb
  keeps p hp := (h'.keeps p (by rwa [h.keeps p hp])).trans (h.keeps p hp)
  blk c hc hbit := (h'.blk c hc (by rwa [h.sb])).trans (h.blk c hc hbit)
  used c hc hne := by
    rw [h'.used c (h.sb ▸ hc) hne, h.used c hc hne]
    constructor
    · rintro ((hused | ⟨p, hp, rfl⟩) | ⟨p, hp, rfl⟩)
      · exact .inl hused
      · exact .inr ⟨p, hp, h'.keeps p hne⟩
      · exact .inr ⟨p, by_contra fun hp' => hp' (h.keeps p hp' ▸ hp), rfl⟩
    · rintro (hused | ⟨p, hp, rfl⟩)
      · exact .inl (.inl hused)
      · by_cases hz : s1.loc d1 p = 0
        · exact .inr ⟨p, hz, rfl⟩
        · exact .inl (.inr ⟨p, hp, (h'.keeps p hz).symm⟩)
  core := by
    rw [h'.core, h.core]

end Grows

theorem Gains.grows {p : Place} (h : Gains s d p b s' d') (hown : Own s taken d) :
    Grows taken s d s' d' where
  own := h.own hown
  sb := h.sb
  keeps _ hq := h.keeps hq
  blk _ hc hbit := h.blk_taken hown hc hbit
  used c hc hne := by
    rw [h.used c hc, Bool.or_eq_true, decide_eq_true_eq]
    refine or_congr_right ⟨?_, ?_⟩
    · rintro rfl
      exact ⟨p, h.none, by rw [h.loc, if_pos rfl]⟩
    · rintro ⟨q, hq, hloc⟩
      rw [h.loc] at hloc
      split_ifs at hloc
      · exact hloc
      · exact absurd (hloc.symm.trans hq) hne
  core := h.core

namespace Mapped

theorem grows (h : Mapped s d bn b s' d') (hown : Own s taken d) : Grows taken s d s' d' := by
  cases h with
  | present h => exact .refl hown
  | one h => exact h.grows hown
  | two _ h1 h => exact (h1.grows hown).trans (h.grows (h1.own hown))

theorem byte (h : Mapped s d bn b s' d') (hown : Own s taken d) (pos : ℕ) :
    s'.byte d' pos = s.byte d pos := by
  cases h with
  | present h => rfl
  | one h => exact h.byte hown pos
  | two _ h1 h => exact (h.byte (h1.own hown) pos).trans (h1.byte hown pos)

/-- The block that is returned is the one at the place. -/
theorem loc_self (h : Mapped s d bn b s' d') (hown : Own s taken d) :
    s'.loc d' (.data bn) = b ∧ b ≠ 0 := by
  cases h with
  | present h => exact ⟨rfl, h⟩
  | one h => exact ⟨by rw [h.loc, if_pos rfl], h.ne_zero hown⟩
  | two _ h1 h => exact ⟨by rw [h.loc, if_pos rfl], h.ne_zero (h1.own hown)⟩

/-- The other data blocks are as they were. -/
theorem loc_of_ne (h : Mapped s d bn b s' d') {x : ℕ} (hx : x ≠ bn) :
    s'.loc d' (.data x) = s.loc d (.data x) := by
  have hne : Place.data x ≠ .data bn := fun heq => hx (Place.data.inj heq)
  cases h with
  | present h => rfl
  | one h => rw [h.loc, if_neg hne]
  | two _ h1 h => rw [h.loc, if_neg hne, h1.loc, if_neg nofun]

end Mapped

/-! ## Room -/

/-- The number of blocks that have to be allocated for the data blocks in `B`. -/
def Img.need (s : Img) (d : Dinode) (B : Finset ℕ) : ℕ :=
  (B.filter fun bn => s.loc d (.data bn) = 0).card +
    if s.loc d .indirect = 0 ∧ ∃ bn ∈ B, NDIRECT ≤ bn then 1 else 0

theorem allocAddr_returns (h : d.addr k = 0 → 0 < s.freeCount) :
    ∃ b d' s', allocAddr s d k = .ok (b, d', s') := by
  unfold allocAddr
  split_ifs with hnone
  · obtain ⟨b, s', halloc⟩ := balloc_returns (h hnone)
    rw [halloc]
    exact ⟨_, _, _, rfl⟩
  · exact ⟨_, _, _, rfl⟩

theorem allocEntry_returns (ind j : ℕ) (h : entry (s.blk ind) j = 0 → 0 < s.freeCount) :
    ∃ b s', allocEntry s ind j = .ok (b, s') := by
  unfold allocEntry
  split_ifs with hnone
  · obtain ⟨b, s', halloc⟩ := balloc_returns (h hnone)
    rw [halloc]
    exact ⟨_, _, rfl⟩
  · exact ⟨_, _, rfl⟩

theorem Img.need_singleton : s.need d {bn} =
    (if s.loc d (.data bn) = 0 then 1 else 0) + if s.loc d .indirect = 0 ∧ NDIRECT ≤ bn then 1
    else 0 := by
  unfold need
  rw [Finset.filter_singleton]
  simp only [Finset.mem_singleton, exists_eq_left]
  split_ifs <;> rfl

theorem bmap_returns (hown : Own s taken d) (hbn : bn < MAXFILE)
    (hfree : s.need d {bn} ≤ s.freeCount) : ∃ b d' s', bmap s d bn = .ok (b, d', s') := by
  rw [Img.need_singleton] at hfree
  unfold bmap
  split_ifs with hdirect hentry
  · refine allocAddr_returns fun hnone => ?_
    rw [Img.loc_direct hdirect, if_pos hnone] at hfree
    omega
  · have hle : NDIRECT ≤ bn := Nat.le_of_not_lt hdirect
    by_cases hind : d.addr NDIRECT = 0
    · rw [Img.loc_none hle hind, if_pos rfl, if_pos ⟨hind, hle⟩] at hfree
      obtain ⟨ind, s1, halloc⟩ := balloc_returns (s := s) (by omega)
      have hcount := ((balloc_eq_ok halloc).gains_indirect hown hind).freeCount
      obtain ⟨b, s', hrest⟩ := allocEntry_returns (s := s1) ind (bn - NDIRECT) fun _ => by omega
      refine ⟨b, d.setAddr NDIRECT ind, s', ?_⟩
      have haddr : allocAddr s d NDIRECT = .ok (ind, d.setAddr NDIRECT ind, s1) := by
        rw [allocAddr, if_pos hind, halloc]
        rfl
      rw [haddr]
      show (allocEntry s1 ind (bn - NDIRECT) >>= _) = _
      rw [hrest]
      rfl
    · rw [Img.loc_entry hle hbn hind] at hfree
      obtain ⟨b, s', hrest⟩ := allocEntry_returns (s := s) (d.addr NDIRECT)
          (bn - NDIRECT) fun hnone => by
        rw [if_pos hnone] at hfree
        omega
      refine ⟨b, d, s', ?_⟩
      have haddr : allocAddr s d NDIRECT = .ok (d.addr NDIRECT, d, s) := by
        rw [allocAddr, if_neg hind]
      rw [haddr]
      show (allocEntry s (d.addr NDIRECT) (bn - NDIRECT) >>= _) = _
      rw [hrest]
      rfl
  · unfold MAXFILE NINDIRECT NDIRECT BSIZE at *
    omega

/-- There is room for the other blocks. -/
theorem Mapped.need {B : Finset ℕ} (h : Mapped s d bn b s' d') (hown : Own s taken d) (hbn : bn ∉ B)
    (hfree : s.need d (insert bn B) ≤ s.freeCount) : s'.need d' B ≤ s'.freeCount := by
  have hsame : (B.filter fun x => s'.loc d' (.data x) = 0) = B.filter fun x =>
      s.loc d (.data x) = 0 :=
    Finset.filter_congr fun x hx => by rw [h.loc_of_ne (ne_of_mem_of_not_mem hx hbn)]
  have hnotMem : bn ∉ B.filter fun x => s.loc d (.data x) = 0 := fun hin =>
    hbn (Finset.mem_of_mem_filter bn hin)
  have hmono : (if s.loc d .indirect = 0 ∧ ∃ x ∈ B, NDIRECT ≤ x then 1 else 0) ≤
      if s.loc d .indirect = 0 ∧ ∃ x ∈ insert bn B, NDIRECT ≤ x then 1 else 0 := by
    split_ifs with h1 h2
    · exact le_rfl
    · obtain ⟨hind, x, hx, hle⟩ := h1
      exact absurd ⟨hind, x, Finset.mem_insert_of_mem hx, hle⟩ h2
    · exact Nat.zero_le 1
    · exact le_rfl
  unfold Img.need at *
  rw [hsame]
  rw [Finset.filter_insert] at hfree
  cases h with
  | present h =>
    rw [if_neg h] at hfree
    omega
  | one h =>
    have hind : s'.loc d' .indirect = s.loc d .indirect := by rw [h.loc, if_neg nofun]
    have hcount := h.freeCount
    rw [if_pos h.none, Finset.card_insert_of_notMem hnotMem] at hfree
    rw [hind]
    omega
  | two hle h1 h =>
    have hind : s'.loc d' .indirect ≠ 0 := by
      rw [h.loc, if_neg nofun, h1.loc, if_pos rfl]
      exact h1.ne_zero hown
    have hnone : s.loc d (.data bn) = 0 := by rw [← h.none, h1.loc, if_neg nofun]
    have hcount := h.freeCount
    have hcount1 := h1.freeCount
    rw [if_pos hnone, Finset.card_insert_of_notMem hnotMem,
      if_pos ⟨h1.none, bn, Finset.mem_insert_self bn B, hle⟩]
      at hfree
    rw [if_neg fun hz => hind hz.1]
    omega

end Dockv6.Disk
