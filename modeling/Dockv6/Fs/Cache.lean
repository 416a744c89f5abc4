import Dockv6.Fs.Calls

/-!
# References to inodes in memory

`Cached g fs`: the entry `i` of `icache` has `g i` references, no two entries with references stand
for one inode, and one that has been read from the disk stands for an inode that is allocated.
-/

namespace Dockv6

/-- The counts of `icache` are `g`, an inode has at most one entry that is in use, and one that was
read is not free. -/
structure Cached (g : Slot → ℕ) (fs : Fs) : Prop where
  refs : Refs fs g
  sole : ∀ {i j}, 0 < g i → 0 < g j → (fs.icache i).inum = (fs.icache j).inum → i = j
  valid : ∀ {i}, 0 < g i → (fs.icache i).valid = true → fs.node i ≠ .free

/-- One more reference, to the inode that was found, if one was. -/
def withRef (g : Slot → ℕ) : Option Slot → Slot → ℕ
  | none => g
  | some i => g + Pi.single i 1

namespace Cached

variable {g : Slot → ℕ} {fs fs' : Fs} {i ip dp : Slot} {n : ℕ} {name : Name}

theorem congr {g' : Slot → ℕ} (h : Cached g fs) (hg : g' = g) : Cached g' fs := hg ▸ h

/-- The entries in use stand for the same inodes, with other counts. -/
theorem of_counts {g' : Slot → ℕ} (h : Cached g fs) (hrefs : Refs fs' g')
    (hpos : ∀ j, 0 < g' j → 0 < g j)
    (hinum : ∀ j, 0 < g' j → (fs'.icache j).inum = (fs.icache j).inum)
    (hvalid : ∀ j, 0 < g' j → (fs'.icache j).valid = true → fs'.node j ≠ .free) : Cached g' fs' :=
  ⟨hrefs, fun {i j} hi hj hij => h.sole (hpos i hi) (hpos j hj)
    (by rwa [hinum i hi, hinum j hj] at hij), fun {j} => hvalid j⟩

/-- Inodes of the disk are written, and none is freed. -/
theorem of_icache (h : Cached g fs) (hic : fs'.icache = fs.icache)
    (hfree : ∀ n, (fs'.disk n).node = .free → (fs.disk n).node = .free) : Cached g fs' := by
  refine h.of_counts
    (fun j => by rw [hic, h.refs]) (fun _ => id) (fun j _ => by rw [hic]) fun j hj hvalid hnode =>
      ?_
  rw [hic] at hvalid
  rw [Fs.node, Fs.dinode, hic] at hnode
  exact h.valid hj hvalid (hfree _ hnode)

theorem setDinode (h : Cached g fs) {n : ℕ} {d : Dinode}
    (hd : d.node = .free → (fs.disk n).node = .free) : Cached g (fs.setDinode n d) := by
  refine h.of_icache rfl fun m hm => ?_
  rw [Fs.setDinode_disk] at hm
  split_ifs at hm with hmn
  · rw [hmn]
    exact hd hm
  · exact hm

theorem setNlink (h : Cached g fs) (n : ℕ) (k : ℤ) :
    Cached g (fs.setDinode n { fs.disk n with nlink := k }) :=
  h.setDinode id

theorem iget (h : Cached g fs) (hget : iget fs n = .ok (i, fs')) :
    Cached (g + Pi.single i 1) fs' := by
  have hrefs := (iget_refs hget h.refs).1
  unfold Dockv6.iget at hget
  split at hget
  · -- An entry in use is found.
    rename_i k hk
    cases hget
    have hfound := List.find?_some hk
    simp only [h.refs i, Bool.and_eq_true, decide_eq_true_eq] at hfound
    have hold : ∀ j, 0 < (g + Pi.single i 1 : Slot → ℕ) j → 0 < g j := by
      intro j hj
      by_cases hji : j = i
      · subst hji
        exact_mod_cast hfound.1
      · rwa [Pi.add_apply, Pi.single_eq_of_ne hji, add_zero] at hj
    have hsame : ∀ j,
        ((fs.setInode i { fs.icache i with ref := (fs.icache i).ref + 1 }).icache j).inum =
          (fs.icache j).inum ∧
        ((fs.setInode i { fs.icache i with ref := (fs.icache i).ref + 1 }).icache j).valid =
        (fs.icache j).valid := by
      intro j
      rw [Fs.setInode_icache]
      split_ifs with hji <;> simp [hji]
    refine h.of_counts hrefs hold (fun j _ => (hsame j).1) fun j hj hvalid => ?_
    rw [Fs.node, Fs.dinode, (hsame j).1]
    exact h.valid (hold j hj) ((hsame j).2 ▸ hvalid)
  · rename_i hnone
    split at hget
    · cases hget
    · -- The entry is taken over: no entry in use stands for the inode.
      rename_i k hk
      cases hget
      have hnew : ∀ j, 0 < g j → (fs.icache j).inum ≠ n := by
        intro j hj hjn
        have hj' := List.find?_eq_none.mp hnone j (List.mem_finRange j)
        simp only [h.refs j, hjn, beq_self_eq_true, Bool.and_true, decide_eq_true_eq] at hj'
        exact hj' (by exact_mod_cast hj)
      have hold : ∀ j, j ≠ i → 0 < (g + Pi.single i 1 : Slot → ℕ) j → 0 < g j := by
        intro j hji hj
        rwa [Pi.add_apply, Pi.single_eq_of_ne hji, add_zero] at hj
      refine ⟨hrefs, fun {a b} ha hb hab => ?_, fun {a} ha hvalid => ?_⟩
      rotate_left
      · rw [Fs.node, Fs.dinode, Fs.setInode_disk]
        rw [Fs.setInode_icache] at hvalid ⊢
        split_ifs at hvalid ⊢ with hai
        exact h.valid (hold a hai ha) hvalid
      rw [Fs.setInode_icache, Fs.setInode_icache] at hab
      by_cases hai : a = i
      · by_cases hbi : b = i
        · rw [hai, hbi]
        · rw [if_pos hai, if_neg hbi] at hab
          exact absurd hab.symm (hnew b (hold b hbi hb))
      · by_cases hbi : b = i
        · rw [if_neg hai, if_pos hbi] at hab
          exact absurd hab (hnew a (hold a hai ha))
        · rw [if_neg hai, if_neg hbi] at hab
          exact h.sole (hold a hai ha) (hold b hbi hb) hab

theorem idup (h : Cached g fs) (hi : 0 < g i) : Cached (g + Pi.single i 1) (idup fs i) := by
  have hold : ∀ j, 0 < (g + Pi.single i 1 : Slot → ℕ) j → 0 < g j := by
    intro j hj
    by_cases hji : j = i
    · rwa [hji]
    · rwa [Pi.add_apply, Pi.single_eq_of_ne hji, add_zero] at hj
  refine h.of_counts (idup_refs i h.refs) hold
    (fun j _ => (idup_spec fs i).2.1 j) fun j hj hvalid => ?_
  rw [Fs.node, Fs.dinode, (idup_spec fs i).2.1]
  refine h.valid (hold j hj) ?_
  rw [Dockv6.idup, Fs.setInode_icache] at hvalid
  split_ifs at hvalid with hji
  · rw [hji]
    exact hvalid
  · exact hvalid

theorem ilock (h : Cached g fs) (hl : ilock fs i = .ok fs') : Cached g fs' := by
  refine h.of_counts (ilock_refs hl h.refs) (fun _ => id)
    (fun j _ => ((ilock_spec hl).1 j).2) fun j hj hvalid => ?_
  unfold Dockv6.ilock at hl
  split_ifs at hl with href hv hfree
  · cases hl
    exact h.valid hj hvalid
  · cases hl
    rw [Fs.node, Fs.dinode, Fs.setInode_disk]
    rw [Fs.setInode_icache] at hvalid ⊢
    split_ifs at hvalid ⊢
    · exact hfree
    · exact h.valid hj hvalid

theorem iunlock (h : Cached g fs) (hu : iunlock fs i = .ok fs') : Cached g fs' := by
  obtain ⟨rfl, -⟩ := iunlock_spec hu
  exact h

theorem iput (h : Cached (g + Pi.single i 1) fs) : Cached g (iput fs i) := by
  refine h.of_counts (iput_refs h.refs) (fun _ hj => Nat.add_pos_left hj _)
    (fun j _ => (iput_spec fs i).2.1 j)
    fun j hj hvalid => ?_
  have hjpos : 0 < (g + Pi.single i 1 : Slot → ℕ) j := Nat.add_pos_left hj _
  rw [Fs.node, Fs.dinode, (iput_spec fs i).2.1]
  unfold Dockv6.iput ifree at hvalid ⊢
  rw [Fs.setInode_icache] at hvalid
  rw [Fs.setInode_disk]
  split_ifs at hvalid ⊢ with hfree hji hji
  · simp [Fs.setInode_icache] at hvalid
  · -- The inode is freed, and no other entry stands for it.
    rw [Fs.setInode_icache, if_neg hji] at hvalid
    rw [Fs.setInode_disk, Fs.setDinode_disk, if_neg]
    · exact h.valid hjpos hvalid
    · intro hinum
      exact hji (h.sole hjpos (by simp) hinum)
  · rw [hji] at hjpos ⊢
    exact h.valid hjpos hvalid
  · exact h.valid hjpos hvalid

theorem iput_add {e : Slot → ℕ} (h : Cached (g + (e + Pi.single i 1)) fs) :
    Cached (g + e) (Dockv6.iput fs i) :=
  iput (h.congr (add_assoc _ _ _))

theorem iunlockput (h : Cached (g + Pi.single i 1) fs) (hp : iunlockput fs i = .ok fs') :
    Cached g fs' := by
  rw [iunlockput_spec hp]
  exact h.iput

theorem dirlookup {r : Option (Slot × ℕ)} (h : Cached g fs)
    (hl : dirlookup fs dp name = .ok (r, fs')) : Cached (withRef g (r.map Prod.fst)) fs' := by
  unfold Dockv6.dirlookup at hl
  split at hl
  · split at hl
    · cases hl
      exact h
    · obtain ⟨⟨j, fs1⟩, hget, hret⟩ := bind_eq_ok.mp hl
      cases hret
      exact h.iget hget
  · cases hl

theorem dirlink {r : Int} (h : Cached g fs) (hl : dirlink fs dp name n = .ok (r, fs')) :
    Cached g fs' := by
  obtain ⟨⟨found, fs1⟩, hlook, hl1⟩ := bind_eq_ok.mp hl
  have h1 := h.dirlookup hlook
  cases found with
  | none =>
    dsimp only at hl1
    split_ifs at hl1
    cases hl1
    exact h1.setDinode nofun
  | some found =>
    cases hl1
    exact h1.iput

/-! ## Lookup -/

theorem namexRound {par last : Bool} {out : Round} (h : Cached (g + Pi.single ip 1) fs)
    (hround : namexRound par last fs ip name = .ok (out, fs')) : Cached (g + out.held) fs' := by
  obtain ⟨href, -, -⟩ | ⟨fs1, hlock, rfl, rfl⟩ | ⟨-, hlock, rfl⟩ |
    ⟨-, fs1, fs2, next, off, hlock, hlook, rfl, rfl⟩ := namexRound_cases hround
  · have hpos := h.refs ip
    rw [Pi.add_apply, Pi.single_eq_same] at hpos
    omega
  · exact (h.ilock hlock).iput
  · exact h.ilock hlock
  · exact Cached.iput (((h.ilock hlock).dirlookup hlook).congr (add_right_comm _ _ _))

theorem namexEnd {par : Bool} {r : Option (Slot × Name)} (h : Cached (g + Pi.single ip 1) fs)
    (hend : (.ok (namexEnd par fs ip name) : Res _) = .ok (r, fs')) :
    Cached (withRef g (r.map Prod.fst)) fs' := by
  unfold Dockv6.namexEnd at hend
  split_ifs at hend
  · cases hend
    exact h.iput
  · cases hend
    exact h

theorem namexLoop {par : Bool} {path : Bytes} {r : Option (Slot × Name)}
    (h : Cached (g + Pi.single ip 1) fs)
    (hloop : namexLoop par n fs ip path name = .ok (r, fs')) :
    Cached (withRef g (r.map Prod.fst)) fs' := by
  induction n generalizing fs ip path name with
  | zero => exact h.namexEnd hloop
  | succ n ih =>
    rw [Dockv6.namexLoop] at hloop
    split at hloop
    · exact h.namexEnd hloop
    · obtain ⟨⟨out, fs1⟩, hround, hrest⟩ := bind_eq_ok.mp hloop
      have h1 := h.namexRound hround
      cases out with
      | ret r' =>
        cases hrest
        cases r <;> exact h1
      | go next => exact ih h1 hrest

/-- The inode where a lookup starts is one that is referred to. -/
theorem startInode {ctx : PathCtx} {path : Bytes} (h : Cached g fs)
    (hroot : ∀ r, ctx.root = some r → 0 < g r) (hcwd : deref path ≠ slash → 0 < g ctx.cwd)
    (hstart : startInode ctx fs path = .ok (ip, fs')) : Cached (g + Pi.single ip 1) fs' := by
  unfold Dockv6.startInode at hstart
  split_ifs at hstart with hslash
  · split at hstart
    · rename_i r hr
      cases hstart
      exact h.idup (hroot ip hr)
    · cases hstart
  · exact h.iget hstart
  · cases hstart
    exact h.idup (hcwd hslash)

theorem namex {ctx : PathCtx} {path : Bytes} {par : Bool} {r : Option (Slot × Name)}
    (h : Cached g fs) (hroot : ∀ r, ctx.root = some r → 0 < g r)
    (hcwd : deref (containerPath ctx path) ≠ slash → 0 < g ctx.cwd)
    (hnamex : namex ctx fs path par = .ok (r, fs')) : Cached (withRef g (r.map Prod.fst)) fs' := by
  obtain ⟨⟨i, fs1⟩, hstart, hloop⟩ := bind_eq_ok.mp hnamex
  exact (h.startInode hroot hcwd hstart).namexLoop hloop

/-! ## Creation and removal -/

theorem ialloc {type : IType} (h : Cached g fs) (ha : ialloc fs type = .ok (ip, fs')) :
    Cached (g + Pi.single ip 1) fs' := by
  unfold Dockv6.ialloc at ha
  split at ha
  · cases ha
  · refine Cached.iget (h.setDinode fun hfree => ?_) ha
    cases type <;> cases hfree

theorem createDots {type : IType} (h : Cached g fs) (hc : createDots fs ip dp type = .ok fs') :
    Cached g fs' := by
  unfold Dockv6.createDots at hc
  split_ifs at hc
  · obtain ⟨⟨r1, fs1⟩, hdot, hc1⟩ := bind_eq_ok.mp hc
    have h1 := (h.setNlink _ ((fs.dinode dp).nlink + 1)).dirlink hdot
    dsimp only at hc1
    split_ifs at hc1
    obtain ⟨⟨r2, fs2⟩, hdotdot, hc2⟩ := bind_eq_ok.mp hc1
    dsimp only at hc2
    split_ifs at hc2
    cases hc2
    exact h1.dirlink hdotdot
  · cases hc
    exact h

theorem createIn {type : IType} {major minor : ℕ} (h : Cached (g + Pi.single dp 1) fs)
    (hc : createIn fs dp name type major minor = .ok (ip, fs')) :
    Cached (g + Pi.single ip 1) fs' := by
  obtain ⟨⟨i, fs1⟩, halloc, hc1⟩ := bind_eq_ok.mp hc
  obtain ⟨fs2, hlock, hc2⟩ := bind_eq_ok.mp hc1
  obtain ⟨fs3, hdots, hc3⟩ := bind_eq_ok.mp hc2
  obtain ⟨⟨r, fs4⟩, hlink, hc4⟩ := bind_eq_ok.mp hc3
  dsimp only at hc4
  split_ifs at hc4
  obtain ⟨fs5, hput, hc5⟩ := bind_eq_ok.mp hc4
  cases hc5
  have h3 := ((h.ialloc halloc).ilock hlock).setDinode
    (d := { node := (fs2.node ip).setDev major minor, nlink := 1 })
      (n := (fs2.icache ip).inum) Node.free_of_setDev
  have h4 := (h3.createDots hdots).dirlink hlink
  exact (h4.congr (add_right_comm _ _ _)).iunlockput hput

theorem unlinkEntry {off : ℕ} (h : Cached (g + Pi.single dp 1 + Pi.single ip 1) fs)
    (hu : unlinkEntry fs dp ip off = .ok fs') : Cached g fs' := by
  obtain ⟨fs1, hput, hu1⟩ := bind_eq_ok.mp hu
  have h1 : Cached (g + Pi.single ip 1) fs1 := by
    refine Cached.iunlockput ?_ hput
    have hents := (h.congr (add_right_comm _ _ _)).setDinode (n := (fs.icache dp).inum)
      (d := { fs.dinode dp with
        node := .dir (writeDirent (fs.node dp).ents off ⟨0, List.replicate DIRSIZ 0⟩) }) nofun
    split_ifs
    · exact hents.setNlink _ _
    · exact hents
  exact (h1.setNlink _ ((fs1.dinode ip).nlink - 1)).iunlockput hu1

end Cached

end Dockv6
