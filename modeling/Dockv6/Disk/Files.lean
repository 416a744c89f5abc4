import Dockv6.Disk.Content

/-!
# The files of a disk

The dinodes in force `F` are those on the disk, or in memory where an inode is in use. On a sound
disk each block belongs to one file at one place (`Img.Sound`), and a function that works on one
file keeps the files apart (`Img.Sound.grows`).
-/

namespace Dockv6.Disk

open Function

variable {s s' : Img} {F : ℕ → Dinode} {d d' : Dinode} {b c i n off : ℕ} {p q : Place}
  {data : Bytes}

/-! ## Sound disks -/

namespace Superblock

/-- The inode is allocated. -/
def Live (sb : Superblock) (F : ℕ → Dinode) (n : ℕ) : Prop := n < sb.ninodes ∧ (F n).type ≠ 0

/-- The super block, the inode blocks, the bit map and the data blocks come one after another. -/
structure Layout (sb : Superblock) : Prop where
  super : 1 < sb.inodestart
  inodestart_le : sb.inodestart ≤ sb.bmapstart
  inodes : ∀ n < sb.ninodes, sb.iblock n < sb.bmapstart
  bitmap : ∀ b < sb.size, sb.bblock b < sb.dataStart
  pos : 0 < sb.dataStart
  size : sb.size ≤ 2 ^ 32

theorem le_bblock (sb : Superblock) (b : ℕ) : sb.bmapstart ≤ sb.bblock b := Nat.le_add_left _ _

theorem le_iblock (sb : Superblock) (n : ℕ) : sb.inodestart ≤ sb.iblock n := Nat.le_add_left _ _

theorem Layout.bmapstart_lt {sb : Superblock} (h : sb.Layout) : sb.bmapstart < sb.dataStart :=
  (sb.le_bblock 0).trans_lt (h.bitmap 0 (h.pos.trans_le (Nat.sub_le _ _)))

end Superblock

/-- Each block of an allocated inode is a data block, marked in the bit map, and belongs to no other
inode and to no other place; the blocks before the data blocks are marked. -/
structure Img.Sound (s : Img) (F : ℕ → Dinode) : Prop where
  layout : s.sb.Layout
  super : readsb s.blk = s.sb
  inj : ∀ {n m p q}, s.sb.Live F n → s.sb.Live F m → s.loc (F n) p = s.loc (F m) q →
    s.loc (F n) p ≠ 0 → n = m ∧ p = q
  le : ∀ {n p}, s.sb.Live F n → s.loc (F n) p ≠ 0 → s.sb.dataStart ≤ s.loc (F n) p
  lt : ∀ {n p}, s.sb.Live F n → s.loc (F n) p ≠ 0 → s.loc (F n) p < s.sb.size
  used : ∀ {n p}, s.sb.Live F n → s.loc (F n) p ≠ 0 → s.used (s.loc (F n) p) = true
  reserved : ∀ b < s.sb.dataStart, s.used b = true

/-- The blocks that are not for the inode `i`: those before the data blocks, and those of the other
inodes. -/
def Img.others (s : Img) (F : ℕ → Dinode) (i : ℕ) : Set ℕ :=
  {b | b < s.sb.dataStart ∨ ∃ n p, n ≠ i ∧ s.sb.Live F n ∧ s.loc (F n) p ≠ 0 ∧ s.loc (F n) p = b}

namespace Img.Sound

theorem own (h : s.Sound F) (hi : s.sb.Live F i) : Own s (s.others F i) (F i) where
  inj heq hne := (h.inj hi hi heq hne).2
  used hne := h.used hi hne
  lt hne := h.lt hi hne
  apart {p} hne := by
    rintro (hlt | ⟨n, q, hn, hlive, hq, heq⟩)
    · exact absurd (h.le hi hne) (Nat.not_le.mpr hlt)
    · exact hn (h.inj hlive hi heq hq).1
  taken_used := by
    rintro b (hlt | ⟨n, q, -, hlive, hq, rfl⟩) -
    · exact h.reserved b hlt
    · exact h.used hlive hq
  bitmap b hb := .inl (h.layout.bitmap b hb)
  zero := .inl h.layout.pos
  size := h.layout.size

/-- No block of a file is in the bit map. -/
theorem loc_ne_bblock (h : s.Sound F) (hn : s.sb.Live F n) (hne : s.loc (F n) p ≠ 0)
    (hb : b < s.sb.size) :
    s.sb.bblock b ≠ s.loc (F n) p := ((h.layout.bitmap b hb).trans_le (h.le hn hne)).ne

section Grows

variable (h : s.Sound F) (hg : Grows (s.others F i) s (F i) s' d')
include h hg

/-- What the other inodes have stays as it is. -/
theorem blk_other (hn : s.sb.Live F n) (hne : n ≠ i) (hp : s.loc (F n) p ≠ 0) :
    s'.blk (s.loc (F n) p) = s.blk (s.loc (F n) p) :=
  hg.blk _ (.inr ⟨n, p, hne, hn, hp, rfl⟩) fun _ hb => h.loc_ne_bblock hn hp hb

theorem loc_other (hn : s.sb.Live F n) (hne : n ≠ i) (p : Place) : s'.loc (F n) p = s.loc (F n) p :=
  Img.loc_congr (fun hind => h.blk_other hg hn hne (p := .indirect) hind) p

theorem byte_other (hn : s.sb.Live F n) (hne : n ≠ i) (pos : ℕ) :
    s'.byte (F n) pos = s.byte (F n) pos := by
  unfold Img.byte
  rw [h.loc_other hg hn hne]
  split_ifs with hp
  · rfl
  · rw [h.blk_other hg hn hne hp]

/-- Blocks before the bit map stay as they are. -/
theorem blk_low (hc : c < s.sb.bmapstart) : s'.blk c = s.blk c :=
  hg.blk c (.inl (hc.trans h.layout.bmapstart_lt)) fun b _ => (hc.trans_le (s.sb.le_bblock b)).ne'

theorem dinode_grows (hn : n < s.sb.ninodes) : s'.dinode n = s.dinode n := by
  unfold Img.dinode
  rw [hg.sb, h.blk_low hg (h.layout.inodes n hn)]

theorem readsb_grows : readsb s'.blk = s'.sb := by
  have hone : s'.blk 1 = s.blk 1 := h.blk_low hg (h.layout.super.trans_le h.layout.inodestart_le)
  rw [hg.sb, ← h.super, readsb, readsb, hone]

omit h in
theorem live_update : s'.sb.Live (update F i d') n ↔ s.sb.Live F n := by
  unfold Superblock.Live
  rw [hg.sb, update_apply]
  split_ifs with hn
  · rw [hg.core, hn]
  · rfl

/-- The blocks of the inodes afterwards. -/
theorem loc_update (hn : s.sb.Live F n) (p : Place) :
    s'.loc (update F i d' n) p = if n = i then s'.loc d' p else s.loc (F n) p := by
  rw [update_apply]
  split_ifs with hne
  · rfl
  · exact h.loc_other hg hn hne p

/-- A function that works on one file keeps the disk sound. -/
theorem grows : s'.Sound (update F i d') where
  layout := hg.sb ▸ h.layout
  super := h.readsb_grows hg
  inj {n m p q} hn hm heq hne := by
    rw [live_update hg] at hn hm
    rw [h.loc_update hg hn] at heq hne
    rw [h.loc_update hg hm] at heq
    split_ifs at heq hne with hn' hm' hm'
    · exact ⟨hn'.trans hm'.symm, hg.own.inj heq hne⟩
    · exact absurd (.inr ⟨m, q, hm', hm, heq ▸ hne, heq.symm⟩) (hg.own.apart hne)
    · exact absurd (.inr ⟨n, p, hn', hn, hne, heq⟩) (hg.own.apart (heq ▸ hne))
    · exact h.inj hn hm heq hne
  le {n p} hn hne := by
    rw [live_update hg] at hn
    rw [h.loc_update hg hn] at hne ⊢
    rw [hg.sb]
    split_ifs at hne ⊢
    · exact Nat.le_of_not_lt fun hlt => hg.own.apart hne (.inl hlt)
    · exact h.le hn hne
  lt {n p} hn hne := by
    rw [live_update hg] at hn
    rw [h.loc_update hg hn] at hne ⊢
    split_ifs at hne ⊢
    · exact hg.own.lt hne
    · exact hg.sb ▸ h.lt hn hne
  used {n p} hn hne := by
    rw [live_update hg] at hn
    rw [h.loc_update hg hn] at hne ⊢
    split_ifs at hne ⊢
    · exact hg.own.used hne
    · exact (hg.used _ (h.lt hn hne) hne).mpr (.inl (h.used hn hne))
  reserved b hb := by
    rw [hg.sb] at hb
    exact hg.own.taken_used b (.inl hb) (hg.sb ▸ hb.trans_le (Nat.sub_le _ _))

end Grows

end Img.Sound

/-! ## Inodes on the disk -/

/-- The disks differ in the inode blocks only. -/
structure Img.InodesOnly (s s' : Img) : Prop where
  sb : s'.sb = s.sb
  blk : ∀ c, (∀ n < s.sb.ninodes, s.sb.iblock n ≠ c) → s'.blk c = s.blk c

theorem iupdate_inodesOnly (hi : i < s.sb.ninodes) : s.InodesOnly (iupdate s i d) where
  sb := rfl
  blk _ hc := Img.write_blk_of_ne (hc i hi).symm

theorem dinode_iupdate (hd : d.Fits) (n : ℕ) : (iupdate s i d).dinode n =
    if n = i then d else s.dinode n := by
  unfold iupdate Img.dinode
  rw [Img.write_sb]
  by_cases hblock : s.sb.iblock n = s.sb.iblock i
  · rw [hblock, Img.write_blk_self]
    split_ifs with hn
    · rw [hn, Dinode.get_put hd]
    · refine Dinode.get_put_of_ne fun hmod => hn ?_
      unfold Superblock.iblock IPB BSIZE at *
      omega
  · rw [Img.write_blk_of_ne hblock, if_neg fun hn => hblock (congrArg s.sb.iblock hn)]

namespace Img.Sound

section InodesOnly

variable (h : s.Sound F) (hs : s.InodesOnly s')
include h hs

theorem blk_high (hc : s.sb.bmapstart ≤ c) : s'.blk c = s.blk c :=
  hs.blk c fun n hn => ((h.layout.inodes n hn).trans_le hc).ne

theorem used_inodesOnly (b : ℕ) : s'.used b = s.used b := by
  unfold Img.used
  rw [hs.sb, h.blk_high hs (s.sb.le_bblock b)]

theorem blk_inodesOnly (hn : s.sb.Live F n) (hp : s.loc (F n) p ≠ 0) :
    s'.blk (s.loc (F n) p) = s.blk (s.loc (F n) p) :=
  h.blk_high hs (h.layout.bmapstart_lt.le.trans (h.le hn hp))

theorem loc_inodesOnly (hn : s.sb.Live F n) (p : Place) : s'.loc (F n) p = s.loc (F n) p :=
  Img.loc_congr (fun hind => h.blk_inodesOnly hs hn (p := .indirect) hind) p

theorem byte_inodesOnly (hn : s.sb.Live F n) (pos : ℕ) : s'.byte (F n) pos = s.byte (F n) pos := by
  unfold Img.byte
  rw [h.loc_inodesOnly hs hn]
  split_ifs with hp
  · rfl
  · rw [h.blk_inodesOnly hs hn hp]

theorem inodesOnly : s'.Sound F where
  layout := hs.sb ▸ h.layout
  super := by
    have hone : s'.blk 1 = s.blk 1 :=
      hs.blk 1 fun n _ => (h.layout.super.trans_le (s.sb.le_iblock n)).ne'
    rw [hs.sb, ← h.super, readsb, readsb, hone]
  inj {n m p q} hn hm heq hne := by
    rw [hs.sb] at hn hm
    rw [h.loc_inodesOnly hs hn] at heq hne
    rw [h.loc_inodesOnly hs hm] at heq
    exact h.inj hn hm heq hne
  le {n p} hn hne := by
    rw [hs.sb] at hn ⊢
    rw [h.loc_inodesOnly hs hn] at hne ⊢
    exact h.le hn hne
  lt {n p} hn hne := by
    rw [hs.sb] at hn ⊢
    rw [h.loc_inodesOnly hs hn] at hne ⊢
    exact h.lt hn hne
  used {n p} hn hne := by
    rw [hs.sb] at hn
    rw [h.loc_inodesOnly hs hn] at hne ⊢
    rw [h.used_inodesOnly hs, h.used hn hne]
  reserved b hb := by
    rw [hs.sb] at hb
    rw [h.used_inodesOnly hs, h.reserved b hb]

end InodesOnly

/-- The block addresses of an inode in use fit their fields. -/
theorem addr_lt (h : s.Sound F) (hn : s.sb.Live F n) (k : ℕ) : (F n).addr k < 2 ^ 32 := by
  have hloc : ∃ p, (F n).addr k = s.loc (F n) p := by
    have hmod : (F n).addr k = (F n).addr (k % (NDIRECT + 1)) := by
      unfold Dinode.addr
      congr 1
      exact Fin.ext (Nat.mod_mod k (NDIRECT + 1)).symm
    obtain hlt | heq := (Nat.le_of_lt_succ (Nat.mod_lt k (Nat.succ_pos NDIRECT))).lt_or_eq
    · exact ⟨.data _, hmod.trans (Img.loc_direct hlt).symm⟩
    · exact ⟨.indirect, hmod.trans (congrArg (F n).addr heq)⟩
  obtain ⟨p, hp⟩ := hloc
  rw [hp]
  by_cases hz : s.loc (F n) p = 0
  · rw [hz]
    exact Nat.two_pow_pos 32
  · exact (h.lt hn hz).trans_le h.layout.size

end Img.Sound

/-! ## A file as an array of bytes -/

/-- What `writei` has done to the inode `i` and to the others. -/
structure FileWritten (s : Img) (F : ℕ → Dinode) (i off : ℕ) (data : Bytes) (s' : Img)
    (d' : Dinode) : Prop where
  sb : s'.sb = s.sb
  sound : s'.Sound (update F i d')
  core : d' = { F i with size := max (F i).size (off + data.length), addrs := d'.addrs }
  byte : ∀ pos, s'.byte d' pos =
    if off ≤ pos ∧ pos < off + data.length then data.getD (pos - off) 0 else s.byte (F i) pos
  allocated : ∀ bn, s.loc (F i) (.data bn) ≠ 0 ∨ bn ∈ blocksOf off data.length →
    s'.loc d' (.data bn) ≠ 0
  other : ∀ n, s.sb.Live F n → n ≠ i → ∀ pos, s'.byte (F n) pos = s.byte (F n) pos
  dinode : ∀ n < s.sb.ninodes, n ≠ i → s'.dinode n = s.dinode n

theorem Img.loc_size (s : Img) (d : Dinode) (size : ℕ) :
    s.loc { d with size := size } = s.loc d := rfl

/-- The size of an inode does not matter for its blocks. -/
theorem Img.Sound.resize (h : s.Sound F) (i size : ℕ) :
    s.Sound (update F i { F i with size := size }) := by
  have hlive : ∀ n, s.sb.Live (update F i { F i with size := size }) n ↔
      s.sb.Live F n := fun n => by
    unfold Superblock.Live
    rw [update_apply]
    split_ifs with hn
    · rw [hn]
    · rfl
  have hloc : ∀ n, s.loc (update F i { F i with size := size } n) = s.loc (F n) := fun n => by
    rw [update_apply]
    split_ifs with hn
    · rw [hn, Img.loc_size]
    · rfl
  refine ⟨h.layout, h.super, fun {n m p q} => ?_, fun {n p} => ?_, fun {n p} => ?_, fun {n p} =>
    ?_, h.reserved⟩
  · rw [hlive, hlive, hloc, hloc]
    exact h.inj
  all_goals rw [hlive, hloc]
  · exact h.le
  · exact h.lt
  · exact h.used

theorem writei_written (devsw : ℕ → Devsw) (h : s.Sound F) (hi : s.sb.Live F i)
    (hdev : (F i).type ≠ T_DEV) (hfits : (F i).Fits) (hoff : off ≤ (F i).size)
    (hmax : off + data.length ≤ MAXFILE * BSIZE)
    (hfree : s.need (F i) (blocksOf off data.length) ≤ s.freeCount) :
    Yields (writei devsw s i (F i) off data) fun (r, d', s') =>
      r = data.length ∧ FileWritten s F i off data s' d' := by
  have hmod : (off + data.length) % 2 ^ 32 = off + data.length :=
    Nat.mod_eq_of_lt (hmax.trans_lt (by decide))
  unfold writei
  rw [if_neg hdev, if_neg (by omega), if_neg (by omega)]
  refine (writeRounds_written (h.own hi) le_rfl hmax hfree).bind fun (d1, s1) hw => ?_
  have hsound := h.grows hw.toGrows
  have hallocated : ∀ bn, s.loc (F i) (.data bn) ≠ 0 ∨ bn ∈ blocksOf off data.length →
      s1.loc d1 (.data bn) ≠ 0 := by
    rintro bn (hne | hbn)
    · rwa [hw.keeps _ hne]
    · exact hw.allocated bn hbn
  have hsize : d1.size = (F i).size := by rw [hw.core]
  refine .ite (fun hgrow => ?_) fun hgrow => .pure ⟨rfl, hw.sb, hsound, ?_, hw.byte, hallocated,
    fun n hn hne => h.byte_other hw.toGrows hn hne, fun n hn _ => h.dinode_grows hw.toGrows hn⟩
  · set d' : Dinode := { d1 with size := off + data.length } with hd'
    have hcore : d' = { F i with size := off + data.length, addrs := d'.addrs } := by
      rw [hd', hw.core]
    have hsound' : s1.Sound (update F i d') := by
      have := hsound.resize i (off + data.length)
      rwa [update_idem, update_self] at this
    have hinode : s1.InodesOnly (iupdate s1 i d') := iupdate_inodesOnly (hw.sb ▸ hi.1)
    have hlive : ∀ {n}, s1.sb.Live (update F i d') n ↔ s.sb.Live F n := fun {n} => by
      unfold Superblock.Live
      rw [hw.sb, update_apply]
      split_ifs with hn
      · rw [hcore, hn]
      · rfl
    have hself : s1.sb.Live (update F i d') i := hlive.mpr hi
    have hloc : ∀ p, (iupdate s1 i d').loc d' p = s1.loc d' p := by
      simpa using hsound'.loc_inodesOnly hinode hself
    have hbyte : ∀ pos, (iupdate s1 i d').byte d' pos = s1.byte d' pos := by
      simpa using hsound'.byte_inodesOnly hinode hself
    have hdfits : d'.Fits := by
      have haddr : ∀ k, d'.addr k < 2 ^ 32 := by simpa using hsound'.addr_lt hself
      rw [hcore] at haddr ⊢
      exact ⟨hfits.type, hfits.major, hfits.minor, hfits.nlink, hmax.trans_lt (by decide), haddr⟩
    refine .pure ⟨rfl, hw.sb, hsound'.inodesOnly hinode, ?_, fun pos =>
      (hbyte pos).trans (hw.byte pos),
      fun bn hbn => (hloc _).trans_ne (hallocated bn hbn), fun n hn hne pos => ?_,
      fun n hn hne => ?_⟩
    · rw [max_eq_right (hsize ▸ hgrow.2.le)]
      exact hcore
    · have hother := hsound'.byte_inodesOnly hinode (hlive.mpr hn) pos
      rw [update_of_ne hne] at hother
      exact hother.trans (h.byte_other hw.toGrows hn hne pos)
    · rw [dinode_iupdate hdfits, if_neg hne, h.dinode_grows hw.toGrows hn]
  · have hmaxSize : max (F i).size (off + data.length) = (F i).size := max_eq_left (by omega)
    rw [hmaxSize]
    exact hw.core

theorem writei_eq_neg (devsw : ℕ → Devsw) (hdev : d.type ≠ T_DEV) (hoff : off < 2 ^ 32)
    (hn : data.length < 2 ^ 32)
    (hbad : d.size < off ∨ 2 ^ 32 ≤ off + data.length ∨ MAXFILE * BSIZE < off + data.length) :
    writei devsw s i d off data = .ok (-1, d, s) := by
  have hwrap : (off + data.length) % 2 ^ 32 < off ↔ 2 ^ 32 ≤ off + data.length := by omega
  unfold writei
  rw [if_neg hdev]
  simp only [hwrap]
  split_ifs with hfirst hlarge
  · rfl
  · rfl
  · rw [Nat.mod_eq_of_lt (by omega)] at hlarge
    omega

/-- An inode in use on a sound disk. All its blocks below its size are there. -/
structure OpenFile (s : Img) (F : ℕ → Dinode) (i : ℕ) : Prop where
  sound : s.Sound F
  live : s.sb.Live F i
  fits : (F i).Fits
  allocated : ∀ bn, bn * BSIZE < (F i).size → s.loc (F i) (.data bn) ≠ 0

/-- The file is the array of bytes it was, with `data` at `off`. No other file has changed. -/
structure ArrayWritten (s : Img) (F : ℕ → Dinode) (i off : ℕ) (data : Bytes) (s' : Img)
    (d' : Dinode) : Prop where
  type : d'.type = (F i).type
  size : d'.size = max (F i).size (off + data.length)
  written : slice (s'.byte d') off data.length = data
  rest : ∀ pos < (F i).size, pos < off ∨ off + data.length ≤ pos → s'.byte d' pos = s.byte (F i) pos
  other : ∀ n, s.sb.Live F n → n ≠ i → ∀ pos, s'.byte (F n) pos = s.byte (F n) pos
  dinode : ∀ n < s.sb.ninodes, n ≠ i → s'.dinode n = s.dinode n
  file : OpenFile s' (update F i d') i

namespace OpenFile

theorem size_le (h : OpenFile s F i) : (F i).size ≤ MAXFILE * BSIZE := by
  by_contra hlt
  have hmax := Img.lt_of_loc_ne_zero (h.allocated MAXFILE (Nat.lt_of_not_le hlt))
  exact lt_irrefl _ hmax

theorem readi_eq (devsw : ℕ → Devsw) (h : OpenFile s F i) (hdev : (F i).type ≠ T_DEV)
    (hoff : off < 2 ^ 32) (hn : n < 2 ^ 32) : readi devsw s (F i) off n = .ok (
      if (F i).size < off ∨ 2 ^ 32 ≤ off + n then none
      else some (slice (s.byte (F i)) off (min (off + n) (F i).size - off)), F i, s) := by
  have hwrap : (off + n) % 2 ^ 32 < off ↔ 2 ^ 32 ≤ off + n := by omega
  unfold readi
  rw [if_neg hdev]
  simp only [hwrap]
  split_ifs with hbad hclip
  · rfl
  all_goals
    rw [Nat.mod_eq_of_lt (by omega)] at hclip
  · have hall : ∀ bn ∈ blocksOf off ((F i).size - off), s.loc (F i) (.data bn) ≠ 0 :=
        fun bn hbn => by
      obtain ⟨pos, hlo, hhi, rfl⟩ := mem_blocksOf.mp hbn
      exact h.allocated _ (by unfold BSIZE; omega)
    rw [min_eq_right hclip.le, readRounds_eq le_rfl hall]
    rfl
  · have hall : ∀ bn ∈ blocksOf off n, s.loc (F i) (.data bn) ≠ 0 := fun bn hbn => by
      obtain ⟨pos, hlo, hhi, rfl⟩ := mem_blocksOf.mp hbn
      exact h.allocated _ (by unfold BSIZE; omega)
    rw [min_eq_left (Nat.le_of_not_lt hclip), Nat.add_sub_cancel_left, readRounds_eq le_rfl hall]
    rfl

theorem writei_array (devsw : ℕ → Devsw) (h : OpenFile s F i) (hdev : (F i).type ≠ T_DEV)
    (hoff : off ≤ (F i).size) (hmax : off + data.length ≤ MAXFILE * BSIZE)
    (hfree : s.need (F i) (blocksOf off data.length) ≤ s.freeCount) :
    ∃ d' s', writei devsw s i (F i) off data = .ok (data.length, d', s') ∧
    ArrayWritten s F i off data s' d' := by
  obtain ⟨⟨r, d', s'⟩, heq, rfl, hw⟩ :=
    (writei_written devsw h.sound h.live hdev h.fits hoff hmax hfree).exists_eq_ok
  refine ⟨d', s', heq, ?_⟩
  have hsize : d'.size = max (F i).size (off + data.length) := by rw [hw.core]
  have hlive : s'.sb.Live (update F i d') i := by
    rw [Superblock.Live, hw.sb, update_self, hw.core]
    exact h.live
  have hfits : d'.Fits := by
    have haddr : ∀ k, d'.addr k < 2 ^ 32 := by simpa using hw.sound.addr_lt hlive
    have hlt : max (F i).size (off + data.length) < 2 ^ 32 :=
      (max_le h.size_le hmax).trans_lt (by decide)
    rw [hw.core] at haddr ⊢
    exact ⟨h.fits.type, h.fits.major, h.fits.minor, h.fits.nlink, hlt, haddr⟩
  refine ⟨by rw [hw.core], hsize, slice_eq fun k hk => ?_, fun pos _ hout => ?_, hw.other,
    hw.dinode, hw.sound, hlive, ?_, fun bn hbn => ?_⟩
  · rw [hw.byte, if_pos (by omega), Nat.add_sub_cancel_left]
  · rw [hw.byte, if_neg (by omega)]
  · rwa [update_self]
  · rw [update_self] at hbn ⊢
    rw [hsize] at hbn
    refine hw.allocated bn ?_
    by_cases hold : bn * BSIZE < (F i).size
    · exact .inl (h.allocated bn hold)
    · -- The block starts at or after the old end, and `off` is not after that.
      exact .inr (mem_blocksOf.mpr
        ⟨bn * BSIZE, by omega, by omega, Nat.mul_div_cancel bn (by decide)⟩)

end OpenFile

/-- The contents of an inode behave as an array of bytes. -/
theorem inode_array (devsw : ℕ → Devsw) (h : OpenFile s F i) (hdev : (F i).type ≠ T_DEV) :
    (∀ off n, off < 2 ^ 32 → n < 2 ^ 32 → readi devsw s (F i) off n = .ok (
      if (F i).size < off ∨ 2 ^ 32 ≤ off + n then none
      else some (slice (s.byte (F i)) off (min (off + n) (F i).size - off)), F i, s)) ∧
    ∀ off (data : Bytes), off < 2 ^ 32 → data.length < 2 ^ 32 →
      if (F i).size < off ∨ 2 ^ 32 ≤ off + data.length ∨ MAXFILE * BSIZE < off + data.length then
        writei devsw s i (F i) off data = .ok (-1, F i, s)
      else s.need (F i) (blocksOf off data.length) ≤ s.freeCount → ∃ d' s',
        writei devsw s i (F i) off data = .ok (data.length, d', s') ∧
        ArrayWritten s F i off data s' d' := by
  refine ⟨fun off n hoff hn => h.readi_eq devsw hdev hoff hn, fun off data hoff hn => ?_⟩
  split_ifs with hbad
  · exact writei_eq_neg devsw hdev hoff hn hbad
  · exact h.writei_array devsw hdev (by omega) (by omega)

/-! ## A disk with one file -/

/-- The number of the indirect block of `fileDisk`. -/
abbrev fileIndirect : ℕ := 399

/-- The inode of the file of `fileDisk`. -/
def fileInode (type size m : ℕ) : Dinode where
  type := type
  major := 0
  minor := 0
  nlink := 1
  size := size
  addrs k := if (k : ℕ) < NDIRECT then if k < m then 10 + k else 0 else if m ≤ NDIRECT then 0
    else fileIndirect

/-- One inode block, one block of the bit map, and data blocks from `10` on. -/
def fileSb : Superblock :=
  { size := 400, nblocks := 390, ninodes := 8, nlog := 1, logstart := 2, inodestart := 3,
    bmapstart := 4 }

/-- The bytes of `fileSb`. -/
def fileSbBytes : Bytes :=
  [144, 1, 0, 0, 134, 1, 0, 0, 8, 0, 0, 0, 1, 0, 0, 0, 2, 0, 0, 0, 3, 0, 0, 0, 4]

/-- A disk on which inode `1` has `m` data blocks, with the contents `data`. -/
def fileDisk (type size m : ℕ) (data : ℕ → Block) : Img where
  sb := fileSb
  log := []
  blk b :=
    if b = 1 then fun o => fileSbBytes.getD o 0
    else if b = 3 then (fileInode type size m).put (fun _ => 0) 1
    else if b = 4 then (List.range (10 + m) ++ if m ≤ NDIRECT then [] else [fileIndirect]).foldl
      setBit fun _ => 0
    else if b = fileIndirect then
      fun o => if NDIRECT + o / 4 < m then leByte (10 + (NDIRECT + o / 4)) (o % 4) else 0
    else data (b - 10)

theorem fileSb_layout : fileSb.Layout where
  super := by decide
  inodestart_le := by decide
  inodes n hn := by
    have hn : n < 8 := hn
    show n / 16 + 3 < 4
    omega
  bitmap b hb := by
    have hb : b < 400 := hb
    show b / 8192 + 4 < 10
    omega
  pos := by decide
  size := by decide

section FileDisk

variable {type size m : ℕ} {content : ℕ → Block} {k : ℕ}

theorem fileInode_addr (hk : k ≤ NDIRECT) : (fileInode type size m).addr k =
    if k < NDIRECT then if k < m then 10 + k else 0 else if m ≤ NDIRECT then 0
    else fileIndirect := by
  have hval : (Fin.ofNat (NDIRECT + 1) k : ℕ) = k := Nat.mod_eq_of_lt (Nat.lt_succ_of_le hk)
  show (if (Fin.ofNat (NDIRECT + 1) k : ℕ) < NDIRECT then _ else _) = _
  rw [hval]

theorem fileInode_fits (htype : type < 2 ^ 16) (hsize : size < 2 ^ 32) :
    (fileInode type size m).Fits where
  type := htype
  major := Nat.two_pow_pos 16
  minor := Nat.two_pow_pos 16
  nlink := Nat.one_lt_two_pow (by decide)
  size := hsize
  addr k := by
    show (if (Fin.ofNat (NDIRECT + 1) k : ℕ) < NDIRECT then _ else _) < _
    unfold NDIRECT fileIndirect
    split_ifs <;> omega

theorem fileDisk_readsb : readsb (fileDisk type size m content).blk = fileSb := by
  have hone : (fileDisk type size m content).blk 1 = fun o => fileSbBytes.getD o 0 := rfl
  rw [readsb, hone]
  decide

theorem fileDisk_dinode (htype : type < 2 ^ 16) (hsize : size < 2 ^ 32) :
    (fileDisk type size m content).dinode 1 = fileInode type size m :=
  Dinode.get_put (fileInode_fits htype hsize)

theorem fileDisk_live {n : ℕ}
    (h : (fileDisk type size m content).sb.Live (fileDisk type size m content).dinode n) :
    n = 1 := by
  by_contra hne
  obtain ⟨hlt, htype⟩ := h
  have hlt : n < 8 := hlt
  refine htype ?_
  have hblock : (fileDisk type size m content).sb.iblock n = 3 := by
    show n / 16 + 3 = 3
    omega
  have hmod : n % IPB ≠ 1 := by
    unfold IPB BSIZE
    omega
  have hdinode : (fileDisk type size m content).dinode n = .get (fun _ => 0) (n % IPB) := by
    rw [Img.dinode, hblock]
    exact Dinode.get_put_of_ne hmod
  rw [hdinode]
  exact getLe_zero fun _ _ _ => rfl

theorem fileDisk_indirect :
    (fileDisk type size m content).loc (fileInode type size m) .indirect = if m ≤ NDIRECT then 0
    else fileIndirect :=
  fileInode_addr le_rfl

theorem fileDisk_loc (hm : m ≤ MAXFILE) (bn : ℕ) :
    (fileDisk type size m content).loc (fileInode type size m) (.data bn) = if bn < m then 10 + bn
    else 0 := by
  by_cases hbn : bn < NDIRECT
  · rw [Img.loc_direct hbn, fileInode_addr hbn.le, if_pos hbn]
  have hle : NDIRECT ≤ bn := Nat.le_of_not_lt hbn
  have haddr : (fileInode type size m).addr NDIRECT = if m ≤ NDIRECT then 0 else fileIndirect :=
    fileInode_addr le_rfl
  by_cases hdirect : m ≤ NDIRECT
  · rw [if_pos hdirect] at haddr
    rw [Img.loc_none hle haddr, if_neg (by omega)]
  rw [if_neg hdirect] at haddr
  by_cases hmax : bn < MAXFILE
  · rw [Img.loc_entry hle hmax (by rw [haddr]; decide), haddr, entry]
    split_ifs with hlt
    · refine (getLe_eq_mod fun k hk => ?_).trans
        (Nat.mod_eq_of_lt ?_ : (10 + bn) % 256 ^ 4 = 10 + bn)
      · have hdiv : NDIRECT + (4 * (bn - NDIRECT) + k) / 4 = bn := by omega
        show (if NDIRECT + (4 * (bn - NDIRECT) + k) / 4 < m then
          leByte (10 + (NDIRECT + (4 * (bn - NDIRECT) + k) / 4))
            ((4 * (bn - NDIRECT) + k) % 4) else 0) = _
        rw [hdiv, if_pos hlt, show (4 * (bn - NDIRECT) + k) % 4 = k by omega]
      · unfold MAXFILE BSIZE at *
        omega
    · refine getLe_zero fun k hlo hhi => if_neg ?_
      omega
  · rw [if_neg (by omega)]
    by_contra hne
    exact hmax (Img.lt_of_loc_ne_zero hne)

theorem fileDisk_used {b : ℕ} (hb : b < 400) : (fileDisk type size m content).used b =
    decide (b < 10 + m ∨ ¬m ≤ NDIRECT ∧ b = fileIndirect) := by
  have hblock : (fileDisk type size m content).sb.bblock b = 4 := by
    show b / 8192 + 4 = 4
    omega
  have hmod : b % BPB = b := Nat.mod_eq_of_lt (hb.trans (by decide))
  rw [Img.used, hblock, hmod]
  show getBit ((List.range (10 + m) ++ if m ≤ NDIRECT then [] else [fileIndirect]).foldl setBit
    fun _ => 0) b = _
  rw [getBit_foldl_setBit, getBit_zero, Bool.false_or, decide_eq_decide, List.mem_append,
    List.mem_range]
  split_ifs with hm
  · simp [hm]
  · simp [hm]

/-- Where the blocks of the file are. -/
theorem fileDisk_cases (hm : m ≤ MAXFILE)
    (hne : (fileDisk type size m content).loc (fileInode type size m) p ≠ 0) :
    (∃ bn < m, p = .data bn ∧ (fileDisk type size m content).loc
      (fileInode type size m) p = 10 + bn) ∨
      ¬m ≤ NDIRECT ∧ p = .indirect ∧ (fileDisk type size m content).loc (fileInode type size m) p =
      fileIndirect := by
  cases p with
  | indirect =>
    rw [fileDisk_indirect] at hne ⊢
    split_ifs at hne ⊢ with h
    · exact absurd rfl hne
    · exact .inr ⟨h, rfl, rfl⟩
  | data bn =>
    rw [fileDisk_loc hm] at hne ⊢
    split_ifs at hne ⊢ with h
    · exact .inl ⟨bn, h, rfl, rfl⟩
    · exact absurd rfl hne

theorem fileDisk_sound (htype : type < 2 ^ 16) (hsize : size < 2 ^ 32) (hm : m ≤ MAXFILE) :
    (fileDisk type size m content).Sound (fileDisk type size m content).dinode := by
  have hstart : fileSb.dataStart = 10 := by decide
  have hend : fileIndirect < fileSb.size := by decide
  have hlt : ∀ {bn}, bn < m → 10 + bn < fileIndirect := fun hbn => by
    unfold MAXFILE BSIZE fileIndirect at *
    omega
  have hself : (fileDisk type size m content).dinode 1 = _ := fileDisk_dinode htype hsize
  refine ⟨fileSb_layout, fileDisk_readsb, fun {n n' p q} hn hn' heq hne => ?_,
    fun {n p} hn hne => ?_, fun {n p} hn hne => ?_, fun {n p} hn hne => ?_, fun b hb => ?_⟩
  · obtain rfl := fileDisk_live hn
    obtain rfl := fileDisk_live hn'
    refine ⟨rfl, ?_⟩
    rw [hself] at heq hne
    obtain ⟨x, hx, rfl, hp⟩ | ⟨-, rfl, hp⟩ := fileDisk_cases hm hne
    · obtain ⟨y, hy, rfl, hq⟩ | ⟨-, rfl, hq⟩ := fileDisk_cases hm (heq ▸ hne)
      · rw [hp, hq] at heq
        rw [Nat.add_left_cancel heq]
      · exact absurd (hp.symm.trans (heq.trans hq)) (hlt hx).ne
    · obtain ⟨y, hy, rfl, hq⟩ | ⟨-, rfl, hq⟩ := fileDisk_cases hm (heq ▸ hne)
      · exact absurd (hq.symm.trans (heq.symm.trans hp)) (hlt hy).ne
      · rfl
  all_goals try
    obtain rfl := fileDisk_live hn
    rw [hself] at hne ⊢
    obtain ⟨x, hx, -, hp⟩ | ⟨hind, -, hp⟩ := fileDisk_cases hm hne
  · exact hp ▸ hstart.trans_le (Nat.le_add_right 10 x)
  · exact hp ▸ hstart.trans_le (by decide)
  · exact hp ▸ (hlt hx).trans hend
  · exact hp ▸ hend
  · rw [hp, fileDisk_used ((hlt hx).trans (by decide))]
    exact decide_eq_true (.inl (by omega))
  · rw [hp, fileDisk_used (by decide)]
    exact decide_eq_true (.inr ⟨hind, rfl⟩)
  · have hb : b < 10 := hstart ▸ hb
    rw [fileDisk_used (by omega)]
    exact decide_eq_true (.inl (by omega))

/-- Blocks before the size are there. -/
theorem fileDisk_file (htype : type < 2 ^ 16) (hlive : type ≠ 0) (hsize : size ≤ m * BSIZE)
    (hm : m ≤ MAXFILE) :
    OpenFile (fileDisk type size m content) (fileDisk type size m content).dinode 1 := by
  have hsize' : size < 2 ^ 32 := by
    unfold MAXFILE BSIZE at *
    omega
  have hself : (fileDisk type size m content).dinode 1 = _ := fileDisk_dinode htype hsize'
  refine ⟨fileDisk_sound htype hsize' hm, ⟨(by decide : 1 < fileSb.ninodes), ?_⟩, ?_,
    fun bn hbn => ?_⟩
  · rw [hself]
    exact hlive
  · rw [hself]
    exact fileInode_fits htype hsize'
  · rw [hself] at hbn ⊢
    have hbn : bn * BSIZE < size := hbn
    rw [fileDisk_loc hm, if_pos (Nat.lt_of_mul_lt_mul_right (hbn.trans_le hsize))]
    omega

end FileDisk

/-- A file with all its direct blocks in use. -/
def directFile : Img := fileDisk T_FILE 12288 12 fun _ _ => 7

theorem directFile_dinode : directFile.dinode 1 = fileInode T_FILE 12288 12 :=
  fileDisk_dinode (by decide) (by decide)

set_option maxRecDepth 100000 in
/-- Four bytes are written across the end of the last direct block: two of them go to the first
block of the indirect block, which is new as well. -/
theorem inode_array_indirect : ∃ d' s',
    writei (fun _ => ⟨none, none⟩) directFile 1 (fileInode T_FILE 12288 12) 12286
        [104, 105, 106, 107] = .ok (4, d', s') ∧
      ArrayWritten directFile directFile.dinode 1 12286 [104, 105, 106, 107] s' d' := by
  have hfile : OpenFile directFile directFile.dinode 1 :=
    fileDisk_file (by decide) (by decide) (by decide) (by decide)
  have hwrite :=
    (inode_array (fun _ => ⟨none, none⟩) hfile (by rw [directFile_dinode]; decide)).2 12286
    [104, 105, 106, 107] (by decide) (by decide)
  rw [directFile_dinode, if_neg (by decide)] at hwrite
  exact hwrite (by decide +kernel)

end Dockv6.Disk
