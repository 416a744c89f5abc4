import Dockv6.Disk.Files
import Dockv6.Kernel.File

/-!
# The transactions of `filewrite`

`filewrite` passes its bytes to `writei` in chunks, each in a transaction of its own, which logs the
data blocks, the bit map and the indirect block where something is allocated, and the inode's block
where the file grows (`card_log_writei`). The bit map is one block.
-/

namespace Dockv6.Disk

variable {s s' : Img} {F : ℕ → Dinode} {d d' : Dinode} {taken : Set ℕ} {b c i k bn off : ℕ}
  {data : Bytes} {r : Int}

/-! ## What is logged -/

/-- A block of the range has to be allocated. -/
def Img.Lacks (s : Img) (d : Dinode) (B : Finset ℕ) : Prop := ∃ bn ∈ B, s.loc d (.data bn) = 0

/-- A block of the range has to be allocated and entered in the indirect block. -/
def Img.LacksEntry (s : Img) (d : Dinode) (B : Finset ℕ) : Prop :=
  ∃ bn ∈ B, NDIRECT ≤ bn ∧ s.loc d (.data bn) = 0

theorem Img.lacks_insert (B : Finset ℕ) : s.Lacks d (insert bn B) ↔ s.loc d (.data bn) = 0 ∨
    s.Lacks d B :=
  Finset.exists_mem_insert _ _ _

theorem Img.lacksEntry_insert (B : Finset ℕ) :
    s.LacksEntry d (insert bn B) ↔ NDIRECT ≤ bn ∧ s.loc d (.data bn) = 0 ∨ s.LacksEntry d B :=
  Finset.exists_mem_insert _ _ _

theorem Img.lacks_congr {B : Finset ℕ} (h : ∀ x ∈ B, s'.loc d' (.data x) = s.loc d (.data x)) :
    (s'.Lacks d' B ↔ s.Lacks d B) ∧ (s'.LacksEntry d' B ↔ s.LacksEntry d B) := by
  refine ⟨exists_congr fun x => and_congr_right fun hx => ?_, exists_congr fun x =>
    and_congr_right fun hx => ?_⟩
  · rw [h x hx]
  · rw [h x hx]

theorem bblock_eq (hsize : s.sb.size ≤ BPB) (hb : b < s.sb.size) :
    s.sb.bblock b = s.sb.bmapstart := by
  rw [Superblock.bblock, Nat.div_eq_of_lt (hb.trans_le hsize), Nat.zero_add]

/-- The blocks that `bmap` logs. -/
theorem Mapped.log (h : Mapped s d bn b s' d') (hsize : s.sb.size ≤ BPB) : c ∈ s'.log ↔ c ∈ s.log ∨
    s.loc d (.data bn) = 0 ∧
    (c = b ∨ c = s.sb.bmapstart ∨ NDIRECT ≤ bn ∧ c = s'.loc d' .indirect) := by
  cases h with
  | present h => simp [h]
  | one h hind =>
    have hentry : (Place.data bn).isEntry = true ↔ NDIRECT ≤ bn := decide_eq_true_iff
    have hsame : s'.loc d' .indirect = s.loc d .indirect := by rw [h.loc, if_neg nofun]
    rw [h.log, bblock_eq hsize h.lt, hentry, hsame]
    have hnone := h.none
    grind
  | two hbn h1 h =>
    have hentry : (Place.data bn).isEntry = true := decide_eq_true hbn
    have hnone : s.loc d (.data bn) = 0 := by rw [← h.none, h1.loc, if_neg nofun]
    have hsame : s'.loc d' .indirect = _ := h.loc .indirect
    rw [h.log, h1.log, bblock_eq (h1.sb ▸ hsize) h.lt, bblock_eq hsize h1.lt, hentry, hsame,
      if_neg nofun, h1.sb, h1.loc, if_pos rfl]
    simp only [Place.isEntry, hnone, hbn]
    grind

/-- The data blocks of the range are there now, and these blocks are logged. -/
structure Logged (taken : Set ℕ) (s : Img) (d : Dinode) (B : Finset ℕ) (s' : Img) (d' : Dinode) :
    Prop extends Grows taken s d s' d' where
  allocated : ∀ bn ∈ B, s'.loc d' (.data bn) ≠ 0
  log : ∀ c, c ∈ s'.log ↔ c ∈ s.log ∨ (∃ bn ∈ B, c = s'.loc d' (.data bn)) ∨
    s.Lacks d B ∧ c = s.sb.bmapstart ∨ s.LacksEntry d B ∧ c = s'.loc d' .indirect

theorem Logged.empty (hown : Own s taken d) : Logged taken s d (blocksOf off 0) s d :=
  ⟨.refl hown, fun bn hbn => absurd hbn (Finset.notMem_empty bn), fun c => by
    simp [blocksOf, Img.Lacks, Img.LacksEntry]⟩

/-- The loop of `writei`. -/
theorem writeRounds_logged (hown : Own s taken d) (hsize : s.sb.size ≤ BPB) (hlen : data.length ≤ k)
    (h : writeRounds k s d off data = .ok (d', s')) :
    Logged taken s d (blocksOf off data.length) s' d' := by
  induction k generalizing s d off data with
  | zero =>
    obtain rfl : data = [] := List.length_eq_zero_iff.mp (by omega)
    cases h
    exact .empty hown
  | succ k ih =>
    rw [writeRounds] at h
    split_ifs at h with hnil
    · subst hnil
      cases h
      exact .empty hown
    obtain ⟨⟨b, d1, s1⟩, hbmap, hround⟩ := bind_eq_ok.mp h
    have hmapped := bmap_mapped hown hbmap
    have hgrows := hmapped.grows hown
    obtain ⟨hloc, hne⟩ := hmapped.loc_self hown
    obtain ⟨hinsert, hnotMem⟩ := blocksOf_eq_insert off (List.length_pos_iff.mpr hnil) rfl
    set bn := off / BSIZE
    set m := min data.length (BSIZE - off % BSIZE) with hm
    have hdrop : (data.drop m).length = data.length - m := List.length_drop
    have hm0 : 0 < m := by
      have := List.length_pos_iff.mpr hnil
      unfold BSIZE at *
      omega
    have hwrite : Grows taken s1 d1
        (s1.write b (splice (s1.blk b) (off % BSIZE) (data.take m))) d1 :=
      hgrows.own.write_grows hloc hne
    have hrest := ih hwrite.own (hgrows.sb ▸ hsize) (by omega) hround
    rw [hdrop] at hrest
    set rest := blocksOf (off + m) (data.length - m)
    have hkeep : ∀ p, s1.loc d1 p ≠ 0 → s'.loc d' p = s1.loc d1 p :=
      (hwrite.trans hrest.toGrows).keeps
    have hself : s'.loc d' (.data bn) = b := by rw [hkeep _ (hloc ▸ hne), hloc]
    obtain ⟨hlacks, hentry⟩ := Img.lacks_congr (B := rest) fun x hx =>
      (hgrows.own.write_loc hloc _).trans (hmapped.loc_of_ne (ne_of_mem_of_not_mem hx hnotMem))
    have hind : NDIRECT ≤ bn → s'.loc d' .indirect = s1.loc d1 .indirect := fun hle =>
      hkeep .indirect fun hz => hne (hloc ▸ Img.loc_none hle hz)
    rw [hinsert]
    refine ⟨(hgrows.trans hwrite).trans hrest.toGrows, fun x hx => ?_, fun c => ?_⟩
    · obtain rfl | hx := Finset.mem_insert.mp hx
      · rwa [hself]
      · exact hrest.allocated x hx
    rw [hrest.log, Img.lacks_insert, Img.lacksEntry_insert, Finset.exists_mem_insert, hself,
      hlacks, hentry, Img.write_log, List.mem_cons, hmapped.log hsize, Img.write_sb, hgrows.sb]
    have hsame : NDIRECT ≤ bn ∧ c = s1.loc d1 .indirect ↔ NDIRECT ≤ bn ∧ c = s'.loc d' .indirect :=
      and_congr_right fun hle => by rw [hind hle]
    rw [hsame]
    grind

/-! ## How many blocks -/

theorem mem_ite_singleton {P : Prop} [Decidable P] {x : ℕ} :
    (c ∈ if P then ({x} : Finset ℕ) else ∅) ↔ P ∧ c = x := by
  split_ifs with hP
  · simp [hP]
  · simp [hP]

theorem card_union_ite {X : Finset ℕ} {P : Prop} [Decidable P] {x : ℕ} (h : P → x ∉ X) :
    (X ∪ if P then {x} else ∅).card = X.card + if P then 1 else 0 := by
  split_ifs with hP
  · rw [Finset.card_union_of_disjoint (Finset.disjoint_singleton_right.mpr (h hP)),
      Finset.card_singleton]
  · rw [Finset.union_empty, Nat.add_zero]

open Classical in
/-- The number of different blocks that a `writei` logs. -/
theorem card_log_writei {devsw : ℕ → Devsw} (h : s.Sound F) (hi : s.sb.Live F i)
    (hdev : (F i).type ≠ T_DEV) (hsize : s.sb.size ≤ BPB) (hlog : s.log = [])
    (hoff : off ≤ (F i).size) (hmax : off + data.length ≤ MAXFILE * BSIZE)
    (hw : writei devsw s i (F i) off data = .ok (r, d', s')) :
    s'.log.toFinset.card = (blocksOf off data.length).card +
      (if s.Lacks (F i) (blocksOf off data.length) then 1 else 0) +
      (if s.LacksEntry (F i) (blocksOf off data.length) then 1 else 0) +
      if (F i).size < off + data.length then 1 else 0 := by
  have hmod : (off + data.length) % 2 ^ 32 = off + data.length :=
    Nat.mod_eq_of_lt (hmax.trans_lt (by decide))
  unfold writei at hw
  rw [if_neg hdev, if_neg (by omega), if_neg (by omega)] at hw
  obtain ⟨⟨d1, s1⟩, hrounds, hw⟩ := bind_eq_ok.mp hw
  have hl := writeRounds_logged (h.own hi) hsize le_rfl hrounds
  set B := blocksOf off data.length
  have hgrow : ∀ c, c ∈ s'.log ↔ c ∈ s1.log ∨ (F i).size < off + data.length ∧
      c = s.sb.iblock i := by
    have hsame : d1.size = (F i).size := by rw [hl.core]
    intro c
    dsimp only at hw
    split_ifs at hw with hcond
    · cases hw
      rw [iupdate, Img.write_log, List.mem_cons, hl.sb]
      have := hcond.2
      grind
    · cases hw
      grind
  have hset : s'.log.toFinset = B.image (fun bn => s1.loc d1 (.data bn)) ∪
      (if s.Lacks (F i) B then {s.sb.bmapstart} else ∅) ∪
      (if s.LacksEntry (F i) B then {s1.loc d1 .indirect} else ∅) ∪
      if (F i).size < off + data.length then {s.sb.iblock i} else ∅ := by
    ext c
    rw [List.mem_toFinset, hgrow, hl.log, hlog]
    simp only [Finset.mem_union, mem_ite_singleton, Finset.mem_image, List.not_mem_nil, false_or,
      or_assoc, eq_comm]
  -- The bit map and the inode's block are set aside, so that the file has none of them.
  have hbit : s.sb.bmapstart ∈ s.others F i := .inl h.layout.bmapstart_lt
  have hlow : s.sb.iblock i < s.sb.bmapstart := h.layout.inodes i hi.1
  have hinode : s.sb.iblock i ∈ s.others F i := .inl (hlow.trans h.layout.bmapstart_lt)
  have hout : ∀ c ∈ s.others F i, c ∉ B.image fun bn => s1.loc d1 (.data bn) := by
    intro c hc hin
    obtain ⟨bn, hbn, rfl⟩ := Finset.mem_image.mp hin
    exact hl.own.apart (hl.allocated bn hbn) hc
  have hind : s.LacksEntry (F i) B → s1.loc d1 .indirect ≠ 0 := fun ⟨bn, hbn, hle, _⟩ hz =>
    hl.allocated bn hbn (Img.loc_none hle hz)
  rw [hset, card_union_ite, card_union_ite, card_union_ite, Finset.card_image_of_injOn]
  · intro x hx y _ heq
    exact Place.data.inj (hl.own.inj heq (hl.allocated x hx))
  · exact fun _ => hout _ hbit
  · intro hentry hin
    rw [Finset.mem_union, mem_ite_singleton, Finset.mem_image] at hin
    obtain ⟨bn, -, heq⟩ | ⟨-, heq⟩ := hin
    · cases hl.own.inj heq.symm (hind hentry)
    · exact hl.own.apart (hind hentry) (heq ▸ hbit)
  · intro _ hin
    rw [Finset.mem_union, Finset.mem_union, mem_ite_singleton, mem_ite_singleton] at hin
    obtain (hin | ⟨-, heq⟩) | ⟨hentry, heq⟩ := hin
    · exact hout _ hinode hin
    · exact hlow.ne heq
    · exact hl.own.apart (hind hentry) (heq ▸ hinode)

/-! ## The chunks of `filewrite` -/

/-- A new transaction. -/
def Img.beginOp (s : Img) : Img := { s with log := [] }

theorem Img.Sound.beginOp (h : s.Sound F) : s.beginOp.Sound F :=
  ⟨h.layout, h.super, h.inj, h.le, h.lt, h.used, h.reserved⟩

/-- What a round of `filewrite` finds once it has locked the inode: the disk, the inode, and the
offset of the file. Others may have run since the round before. -/
structure Found where
  s : Img
  d : Dinode
  off : ℕ

/-- A transaction of `filewrite`: what it found, the chunk, and the blocks that it passed to
`log_write`. -/
structure Tx extends Found where
  chunk : Bytes
  logged : List ℕ

/-- The loop of `filewrite` over `data`, with `k` bytes written, in rounds that find the states
`found`. -/
def filewriteRounds (devsw : ℕ → Devsw) (i : ℕ) (data : Bytes) : List Found → ℕ → Res (List Tx)
  | [], _ => .ok []
  | f :: found, k =>
    if k < data.length then do
      let chunk := (data.drop k).take Sys.MAXWRITE
      let (r, _, s) ← writei devsw f.s.beginOp i f.d f.off chunk
      let tx : Tx := { f with chunk := chunk, logged := s.log }
      if r < 0 then return [tx]
      else if r ≠ chunk.length then throw (.panic "short filewrite")
      else
        let txs ← filewriteRounds devsw i data found (k + chunk.length)
        return tx :: txs
    else .ok []

/-- The inode is in use on a sound disk, whose bit map is one block. -/
structure Found.InUse (f : Found) (i : ℕ) : Prop where
  sound : ∃ F, f.s.Sound F ∧ f.s.sb.Live F i ∧ F i = f.d
  fits : f.d.Fits
  size : f.s.sb.size ≤ BPB

/-- The chunk has a part of eight blocks, makes the file grow, and something is entered in the
indirect block. -/
structure Tx.Full (t : Tx) : Prop where
  file : t.d.type ≠ T_DEV
  off : t.off ≤ t.d.size
  max : t.off + t.chunk.length ≤ MAXFILE * BSIZE
  eight : 7 * BSIZE < t.off % BSIZE + t.chunk.length
  grows : t.d.size < t.off + t.chunk.length
  entry : t.s.LacksEntry t.d (blocksOf t.off t.chunk.length)

theorem card_blocksOf {n : ℕ} (hn : 0 < n) :
    (blocksOf off n).card = (off % BSIZE + n - 1) / BSIZE + 1 := by
  rw [blocksOf, if_neg hn.ne', Nat.card_Icc]
  unfold BSIZE
  omega

theorem Img.LacksEntry.lacks {B : Finset ℕ} (h : s.LacksEntry d B) : s.Lacks d B :=
  let ⟨bn, hbn, _, hz⟩ := h
  ⟨bn, hbn, hz⟩

/-- A round. -/
theorem card_log_chunk {devsw : ℕ → Devsw} {f : Found} (hf : f.InUse i) (hpos : 0 < data.length)
    (hlen : data.length ≤ Sys.MAXWRITE)
    (hw : writei devsw f.s.beginOp i f.d f.off data = .ok (r, d', s')) :
    s'.log.toFinset.card ≤ MAXOPBLOCKS ↔ ¬Tx.Full { f with chunk := data, logged := s'.log } := by
  obtain ⟨⟨F, hsound, hlive, hd⟩, hfits, hsize⟩ := hf
  by_cases hok : f.d.type ≠ T_DEV ∧ f.off ≤ f.d.size ∧ f.off + data.length ≤ MAXFILE * BSIZE
  · obtain ⟨hdev, hoff, hmax⟩ := hok
    have hoff' : f.off ≤ (F i).size := hd ▸ hoff
    have hcard := card_log_writei hsound.beginOp hlive (hd ▸ hdev) hsize rfl hoff' hmax (hd ▸ hw)
    rw [hd, card_blocksOf hpos] at hcard
    have height : (f.off % BSIZE + data.length - 1) / BSIZE + 1 ≤ 8 := by
      unfold Sys.MAXWRITE LOGSIZE MAXOPBLOCKS BSIZE at *
      omega
    rw [hcard]
    constructor
    · intro hle hfull
      have hentry : f.s.beginOp.LacksEntry f.d (blocksOf f.off data.length) := hfull.entry
      have hgrows : f.d.size < f.off + data.length := hfull.grows
      have hspan : 7 * BSIZE < f.off % BSIZE + data.length := hfull.eight
      rw [if_pos hentry.lacks, if_pos hentry, if_pos hgrows] at hle
      unfold MAXOPBLOCKS BSIZE at *
      omega
    · intro hfull
      by_contra hgt
      split_ifs at hgt with h1 h2 h3
      all_goals try (unfold MAXOPBLOCKS at hgt; omega)
      refine hfull ⟨hdev, hoff, hmax, ?_, h3, h2⟩
      unfold MAXOPBLOCKS BSIZE at *
      dsimp only
      omega
  · -- Nothing is logged for a device, or where `writei` returns at once.
    have hnone : s'.log = [] := by
      unfold writei at hw
      split_ifs at hw with hdev hmajor hbad hlarge
      · cases hw
        rfl
      · split at hw <;> cases hw <;> rfl
      · cases hw
        rfl
      · cases hw
        rfl
      · refine absurd ⟨hdev, ?_⟩ hok
        have := hfits.size
        unfold Sys.MAXWRITE LOGSIZE MAXOPBLOCKS MAXFILE BSIZE at *
        omega
    rw [hnone]
    exact iff_of_true (by decide) fun hfull => hok ⟨hfull.file, hfull.off, hfull.max⟩

theorem fileDisk_inUse {type size m off : ℕ} {content : ℕ → Block} (htype : type < 2 ^ 16)
    (hlive : type ≠ 0) (hsize : size ≤ m * BSIZE) (hm : m ≤ MAXFILE) :
    Found.InUse ⟨fileDisk type size m content, fileInode type size m, off⟩ 1 := by
  have hfile : OpenFile (fileDisk type size m content) _ 1 := fileDisk_file htype hlive hsize hm
  have hself : (fileDisk type size m content).dinode 1 = fileInode type size m :=
    fileDisk_dinode htype (hsize.trans_lt (by unfold MAXFILE BSIZE at *; omega))
  exact ⟨⟨_, hfile.sound, hfile.live, hself⟩, hself ▸ hfile.fits, (by decide : fileSb.size ≤ BPB)⟩

/-- A transaction of `filewrite` fits its reservation, but for a full chunk. -/
theorem filewrite_fits_iff {devsw : ℕ → Devsw} {found : List Found} {txs : List Tx}
    (hfound : ∀ f ∈ found, f.InUse i) (h : filewriteRounds devsw i data found k = .ok txs) :
    ∀ t ∈ txs, t.logged.toFinset.card ≤ MAXOPBLOCKS ↔ ¬t.Full := by
  induction found generalizing k txs with
  | nil =>
    cases h
    exact fun t ht => absurd ht List.not_mem_nil
  | cons f found ih =>
    rw [filewriteRounds] at h
    split_ifs at h with hk
    · obtain ⟨⟨r, d', s'⟩, hw, h⟩ := bind_eq_ok.mp h
      have hpos : 0 < ((data.drop k).take Sys.MAXWRITE).length := by
        rw [List.length_take, List.length_drop]
        exact lt_min (by decide) (by omega)
      have hround := card_log_chunk (hfound f List.mem_cons_self) hpos (List.length_take_le _ _) hw
      dsimp only at h
      split_ifs at h with hneg hshort
      · cases h
        exact fun t ht => (List.mem_singleton.mp ht) ▸ hround
      · obtain ⟨txs', hrest, h⟩ := bind_eq_ok.mp h
        cases h
        intro t ht
        obtain rfl | ht := List.mem_cons.mp ht
        · exact hround
        · exact ih (fun f hf => hfound f (List.mem_cons_of_mem _ hf)) hrest t ht
    · cases h
      exact fun t ht => absurd ht List.not_mem_nil

set_option maxRecDepth 100000 in
/-- Four bytes across the end of the last direct block: two blocks, the bitmap, the indirect block
and the inode are logged. -/
theorem filewrite_fits_indirect : ∃ txs,
    filewriteRounds (fun _ => ⟨none, none⟩) 1 [104, 105, 106, 107]
      [⟨directFile, fileInode T_FILE 12288 12, 12286⟩] 0 = .ok txs ∧
    (∃ t ∈ txs, t.logged.toFinset.card = 5) ∧
      ∀ t ∈ txs, t.logged.toFinset.card ≤ MAXOPBLOCKS ↔ ¬t.Full := by
  have hrun : (filewriteRounds (fun _ => ⟨none, none⟩) 1 [104, 105, 106, 107]
      [⟨directFile, fileInode T_FILE 12288 12, 12286⟩] 0).toOption.any
        (fun txs => txs.any fun t => decide (t.logged.toFinset.card = 5)) = true := by
    decide +kernel
  obtain ⟨txs, htxs, hany⟩ := (Option.any_eq_true _ _).mp hrun
  obtain ⟨t, ht, hcard⟩ := List.any_eq_true.mp hany
  have hok := toOption_eq_some.mp htxs
  refine ⟨txs, hok, ⟨t, ht, of_decide_eq_true hcard⟩, filewrite_fits_iff (fun f hf => ?_) hok⟩
  rw [List.mem_singleton.mp hf]
  exact fileDisk_inUse (by decide) (by decide) (by decide) (by decide)

set_option maxRecDepth 100000 in
/-- A file of six blocks gets seven more, the last of them in a new indirect block: eleven blocks
are logged. -/
theorem filewrite_logs_eleven : ∃ found : List Found, (∀ f ∈ found, f.InUse 1) ∧ ∃ txs,
    filewriteRounds (fun _ => ⟨none, none⟩) 1 (List.replicate 6656 0) found 0 = .ok txs ∧
      ∃ t ∈ txs, MAXOPBLOCKS < t.logged.toFinset.card := by
  have hrun : (filewriteRounds (fun _ => ⟨none, none⟩) 1 (List.replicate 6656 0)
      [⟨fileDisk T_FILE 5633 6 fun _ _ => 0, fileInode T_FILE 5633 6, 5633⟩] 0).toOption.any
        (fun txs => txs.any fun t => decide (t.logged.toFinset.card = 11)) = true := by
    decide +kernel
  obtain ⟨txs, htxs, hany⟩ := (Option.any_eq_true _ _).mp hrun
  obtain ⟨t, ht, hcard⟩ := List.any_eq_true.mp hany
  refine ⟨[⟨fileDisk T_FILE 5633 6 fun _ _ => 0, fileInode T_FILE 5633 6, 5633⟩], ?_, txs,
    toOption_eq_some.mp htxs, t, ht, ?_⟩
  · intro f hf
    rw [List.mem_singleton.mp hf]
    exact fileDisk_inUse (by decide) (by decide) (by decide) (by decide)
  · rw [of_decide_eq_true hcard]
    decide

end Dockv6.Disk
