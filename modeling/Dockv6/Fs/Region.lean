import Dockv6.Fs.Calls

/-!
# Regions of the directory tree

A set `S` of inodes is *closed* with the gate `r` when every entry of a directory of `S` names an
inode of `S`, but for the entry `..` of `r` (`Closed`). The calls keep a closed region closed. `Good
S r f fs` puts this together with the reference counts `f`.
-/

namespace Dockv6

/-- The inodes in the subtree rooted at `r`. -/
def Subtree (fs : Fs) (r : ℕ) : Set ℕ := {n | Relation.ReflTransGen fs.Child r n}

/-- A directory tree: `.` names the directory itself, and `..` names its parent, of which there is
no other; the root directory's `..` may name the root itself. -/
structure DirTree (fs : Fs) : Prop where
  dot : ∀ d, ∀ de ∈ (fs.disk d).node.ents, de.inum ≠ 0 → de.named .dot = true → de.inum = d
  dotdot : ∀ c, ∀ de ∈ (fs.disk c).node.ents, de.inum ≠ 0 → de.named .dotdot = true →
    fs.Child de.inum c ∨ c = ROOTINO ∧ de.inum = c
  parent : ∀ c, ∀ de ∈ (fs.disk c).node.ents, de.inum ≠ 0 → de.named .dotdot = true →
    ∀ d, fs.Child d c → d = de.inum

/-- Entries of directories in `S` name inodes in `S`, but for the entry `..` of `r`, which does not
name a file. -/
structure Closed (S : Set ℕ) (r : ℕ) (fs : Fs) : Prop where
  link : ∀ d ∈ S, ∀ de ∈ (fs.disk d).node.ents, de.inum ≠ 0 →
    ¬ (d = r ∧ de.named .dotdot = true) → de.inum ∈ S
  gate : ∀ de ∈ (fs.disk r).node.ents, de.inum ≠ 0 → de.named .dotdot = true →
    de.inum ∈ S ∨ (fs.disk de.inum).node.isFile = false

variable {S S' : Set ℕ} {r : ℕ} {fs fs' : Fs} {f : Slot → ℕ}

/-! ## Closed regions -/

theorem isDir_of_child {d c : ℕ} (h : fs.Child d c) : (fs.disk d).node.isFile = false := by
  obtain ⟨de, hde, -⟩ := h
  revert hde
  cases (fs.disk d).node <;> simp [Node.ents, Node.isFile]

/-- The subtree of a directory tree is closed. -/
theorem DirTree.closed (h : DirTree fs) (r : ℕ) : Closed (Subtree fs r) r fs := by
  refine ⟨fun d hd de hde h0 hgate => ?_, fun de hde h0 hup => ?_⟩
  · by_cases hdot : de.named .dot = true
    · rw [h.dot d de hde h0 hdot]
      exact hd
    by_cases hup : de.named .dotdot = true
    · -- `d` is not the root of the subtree, so its parent is in the subtree.
      obtain rfl | ⟨p, hp, hpd⟩ := Relation.ReflTransGen.cases_tail hd
      · exact absurd ⟨rfl, hup⟩ hgate
      · rw [← h.parent d de hde h0 hup p hpd]
        exact hp
    · refine Relation.ReflTransGen.tail hd ⟨de, hde, rfl, h0, ?_⟩
      simp [Dirent.isLink, hdot, hup]
  · rcases h.dotdot r de hde h0 hup with hc | ⟨-, hr⟩
    · exact .inr (isDir_of_child hc)
    · rw [hr]
      exact .inl .refl

theorem Closed.enclosed (h : Closed S r fs) : Enclosed fs.entry S r Name.dotdot := by
  intro d hd k c hc hgate
  obtain ⟨de, hde, rfl, h0, hk⟩ := Fs.entry_eq_some hc
  exact h.link d hd de hde h0 fun ⟨hr, hup⟩ => hgate ⟨hr, Dirent.named_inj hk hup⟩

theorem Closed.subtree_subset (h : Closed S r fs) (hr : r ∈ S) : Subtree fs r ⊆ S := by
  intro n hn
  induction hn with
  | refl => exact hr
  | tail _ hc ih =>
    obtain ⟨de, hde, rfl, h0, hlink⟩ := hc
    refine h.link _ ih de hde h0 fun ⟨_, hup⟩ => ?_
    simp [Dirent.isLink, hup] at hlink

theorem Closed.file_mem (h : Closed S r fs) {d n : ℕ} {name : Name} (hd : d ∈ S)
    (hn : fs.entry d name = some n) (hfile : (fs.disk n).node.isFile = true) : n ∈ S := by
  obtain ⟨de, hde, rfl, h0, -⟩ := Fs.entry_eq_some hn
  by_cases hgate : d = r ∧ de.named .dotdot = true
  · obtain ⟨rfl, hup⟩ := hgate
    refine (h.gate de hde h0 hup).resolve_right fun hno => ?_
    rw [hno] at hfile
    cases hfile
  · exact h.link d hd de hde h0 hgate

theorem Closed.shrinks (h : Closed S r fs) (hshr : Shrinks fs fs') : Closed S r fs' := by
  refine ⟨fun d hd de hde => h.link d hd de (hshr.ents hde), fun de hde h0 hup => ?_⟩
  rcases h.gate de (hshr.ents hde) h0 hup with hS | hfile
  · exact .inl hS
  · refine .inr (Bool.eq_false_iff.mpr fun hf => ?_)
    rw [hshr.isFile hf] at hfile
    cases hfile

/-- An inode joins the region or is in it, and is written with entries that were there before or
that name inodes of the region. -/
theorem Closed.setDinode (h : Closed S r fs) {n : ℕ} {d : Dinode}
    (hents : ∀ de ∈ d.node.ents, de.inum ≠ 0 →
      (n ∈ S ∧ de ∈ (fs.disk n).node.ents) ∨ de.inum ∈ insert n S) :
    Closed (insert n S) r (fs.setDinode n d) := by
  -- An inode that was no file is none now, unless it is the one written.
  have hfile : ∀ m, (fs.disk m).node.isFile = false →
      m ∈ insert n S ∨ ((fs.setDinode n d).disk m).node.isFile = false := by
    intro m hm
    by_cases hmn : m = n
    · exact .inl (.inl hmn)
    · rw [Fs.setDinode_disk, if_neg hmn]
      exact .inr hm
  have hgate : ∀ de, de ∈ (fs.disk r).node.ents → de.inum ≠ 0 → de.named .dotdot = true →
      de.inum ∈ insert n S ∨ ((fs.setDinode n d).disk de.inum).node.isFile = false := by
    intro de hde h0 hup
    rcases h.gate de hde h0 hup with hS | hno
    · exact .inl (.inr hS)
    · exact hfile _ hno
  refine ⟨fun m hm de hde h0 hng => ?_, fun de hde h0 hup => ?_⟩
  · rw [Fs.setDinode_disk] at hde
    split_ifs at hde with hmn
    · subst hmn
      rcases hents de hde h0 with ⟨hmS, hold⟩ | hnew
      · exact .inr (h.link m hmS de hold h0 hng)
      · exact hnew
    · exact .inr (h.link m (hm.resolve_left hmn) de hde h0 hng)
  · rw [Fs.setDinode_disk] at hde
    split_ifs at hde with hrn
    · subst hrn
      rcases hents de hde h0 with ⟨-, hold⟩ | hnew
      · exact hgate de hold h0 hup
      · exact .inl hnew
    · exact hgate de hde h0 hup

theorem Closed.write (h : Closed S r fs) {n : ℕ} {d : Dinode} (hn : n ∈ S)
    (hents : ∀ de ∈ d.node.ents, de.inum ≠ 0 → de ∈ (fs.disk n).node.ents ∨ de.inum ∈ S) :
    Closed S r (fs.setDinode n d) := by
  have hins : insert n S = S := Set.insert_eq_of_mem hn
  have := h.setDinode (n := n) (d := d) fun de hde h0 => by
    rw [hins]
    exact (hents de hde h0).imp_left fun hold => ⟨hn, hold⟩
  rwa [hins] at this

/-! ## The functions of the file system, in a closed region -/

/-- The region `S` with the gate `r` is closed, and `f` counts the references. -/
structure Good (S : Set ℕ) (r : ℕ) (f : Slot → ℕ) (fs : Fs) : Prop where
  closed : Closed S r fs
  refs : Refs fs f

section Good

variable {ip dp i : Slot} {name : Name} {n off : ℕ} {ret : Int} {type : IType}

/-- The same counts, written differently. -/
theorem Good.congr {g : Slot → ℕ} (h : Good S r f fs) (hfg : ∀ j, g j = f j) : Good S r g fs := by
  obtain rfl : g = f := funext hfg
  exact h

theorem Good.swap (h : Good S r (f + Pi.single dp 1 + Pi.single ip 1) fs) :
    Good S r (f + Pi.single ip 1 + Pi.single dp 1) fs :=
  h.congr fun j => by
    simp only [Pi.add_apply]
    omega

theorem Good.iput (h : Good S r (f + Pi.single i 1) fs) : Good S r f (iput fs i) :=
  ⟨h.closed.shrinks (iput_spec fs i).2.2.shrinks, iput_refs h.refs⟩

theorem Good.iunlockput (h : Good S r (f + Pi.single i 1) fs) (hp : iunlockput fs i = .ok fs') :
    Good S r f fs' ∧ ∀ j, (fs'.icache j).inum = (fs.icache j).inum := by
  rw [iunlockput_spec hp]
  exact ⟨h.iput, (iput_spec fs i).2.1⟩

theorem Good.ilock (h : Good S r f fs) (hl : ilock fs i = .ok fs') :
    Good S r f fs' ∧ ∀ j, (fs'.icache j).inum = (fs.icache j).inum := by
  obtain ⟨hkeep, -, hdisk⟩ := ilock_spec hl
  exact ⟨⟨h.closed.shrinks (.of_disk_eq hdisk), ilock_refs hl h.refs⟩, fun j => (hkeep j).2⟩

theorem Good.dirlookup (h : Good S r f fs) (hl : dirlookup fs dp name = .ok (some (ip, off), fs')) :
    Good S r (f + Pi.single ip 1) fs' ∧ Keeps f fs fs' ∧
      fs.entry (fs.icache dp).inum name = some (fs'.icache ip).inum := by
  obtain ⟨-, hc, hdisk, -, hentry⟩ := dirlookup_spec hl
  refine ⟨⟨h.closed.shrinks (.of_disk_eq hdisk), hc.refs h.refs fun j => ?_⟩,
    hc.keeps h.refs fun _ => id, hentry⟩
  by_cases hj : j = ip <;> simp [got, hj]

theorem Good.dirlookup_put {fs1 : Fs} (h : Good S r (f + Pi.single dp 1) fs)
    (hl : Dockv6.dirlookup fs dp name = .ok (some (ip, off), fs1))
    (hp : Dockv6.iunlockput fs1 dp = .ok fs') :
    Good S r (f + Pi.single ip 1) fs' ∧ Keeps f fs fs' ∧
      fs.entry (fs.icache dp).inum name = some (fs'.icache ip).inum ∧ Shrinks fs fs' := by
  obtain ⟨h1, hk, hentry⟩ := h.dirlookup hl
  obtain ⟨h2, hi⟩ := h1.swap.iunlockput hp
  refine ⟨h2, fun j hj => (hi j).trans (hk j (by simp only [Pi.add_apply]; omega)), ?_, ?_⟩
  · rw [hi, hentry]
  · rw [iunlockput_spec hp]
    exact ((dirlookup_frees hl).trans (iput_spec fs1 dp).2.2).shrinks

theorem Good.setEnts (h : Good S r f fs) (hdp : (fs.icache dp).inum ∈ S) {de : Dirent}
    (hde : de.inum ≠ 0 → de.inum ∈ S) :
    Good S r f (fs.setEnts dp (writeDirent (fs.node dp).ents off de)) := by
  refine ⟨h.closed.write hdp fun de' hde' h0 => ?_, h.refs⟩
  rcases mem_writeDirent hde' with hold | rfl
  · exact .inl hold
  · exact .inr (hde h0)

theorem Good.dirlink (h : Good S r f fs) (hdp : (fs.icache dp).inum ∈ S) (hn : n ∈ S)
    (hd : dirlink fs dp name n = .ok (ret, fs')) : Good S r f fs' ∧ Keeps f fs fs' := by
  obtain ⟨⟨found, fs1⟩, hlook, hl⟩ := bind_eq_ok.mp hd
  rcases found with _ | ⟨ip, off⟩
  · obtain ⟨-, -, -, rfl, -⟩ := dirlookup_spec hlook
    dsimp only at hl
    split_ifs at hl
    obtain ⟨rfl, rfl⟩ := Prod.mk.inj (Except.ok.inj hl)
    exact ⟨h.setEnts hdp fun _ => hn, fun j _ => rfl⟩
  · obtain ⟨rfl, rfl⟩ := Prod.mk.inj (Except.ok.inj hl)
    obtain ⟨h1, hk, -⟩ := h.dirlookup hlook
    exact ⟨h1.iput, fun j hj => ((iput_spec fs1 ip).2.1 j).trans (hk j hj)⟩

/-- The inode allocated joins the region; its entries are gone. -/
theorem Good.ialloc (h : Good S r f fs) (ha : ialloc fs type = .ok (ip, fs')) :
    Good (insert (fs'.icache ip).inum S) r (f + Pi.single ip 1) fs' ∧ Keeps f fs fs' := by
  unfold Dockv6.ialloc at ha
  split at ha
  · cases ha
  · rename_i n hfind
    obtain ⟨-, hinum, -, hdisk⟩ := iget_spec ha
    obtain ⟨hrefs, hk⟩ := iget_refs (f := f) ha fun j => h.refs j
    rw [hinum]
    refine ⟨⟨.shrinks (h.closed.setDinode fun de hde => ?_) (.of_disk_eq hdisk), hrefs⟩, hk⟩
    rw [Node.ents_blank] at hde
    cases hde

/-- A change of the link count. -/
theorem Good.setNlink (h : Good S r f fs) (hi : (fs.icache i).inum ∈ S) (k : Int) :
    Good S r f (fs.setDinode (fs.icache i).inum { fs.dinode i with nlink := k }) :=
  ⟨h.closed.write hi fun _ hde _ => .inl hde, h.refs⟩

theorem Good.createDots (h : Good S r f fs) (hip : (fs.icache ip).inum ∈ S)
    (hdp : (fs.icache dp).inum ∈ S) (hfip : 0 < f ip) (hfdp : 0 < f dp)
    (hc : createDots fs ip dp type = .ok fs') : Good S r f fs' ∧ Keeps f fs fs' := by
  unfold Dockv6.createDots at hc
  by_cases htype : type = .T_DIR
  · rw [if_pos htype] at hc
    obtain ⟨⟨r1, fs1⟩, hlink1, hc⟩ := bind_eq_ok.mp hc
    obtain ⟨h1, hk1⟩ := (h.setNlink hdp _).dirlink hip hip hlink1
    have hip1 : (fs1.icache ip).inum ∈ S := by
      rw [hk1 ip hfip]
      exact hip
    have hdp1 : (fs1.icache dp).inum ∈ S := by
      rw [hk1 dp hfdp]
      exact hdp
    dsimp only at hc
    split_ifs at hc
    obtain ⟨⟨r2, fs2⟩, hlink2, hc⟩ := bind_eq_ok.mp hc
    obtain ⟨h2, hk2⟩ := h1.dirlink hip1 hdp1 hlink2
    dsimp only at hc
    split_ifs at hc
    cases hc
    exact ⟨h2, hk1.trans hk2⟩
  · rw [if_neg htype] at hc
    cases hc
    exact ⟨h, fun j _ => rfl⟩

theorem Good.createIn {major minor : ℕ} (h : Good S r (f + Pi.single dp 1) fs)
    (hdp : (fs.icache dp).inum ∈ S)
    (hc : createIn fs dp name type major minor = .ok (ip, fs')) :
    Good (insert (fs'.icache ip).inum S) r (f + Pi.single ip 1) fs' ∧ Keeps f fs fs' := by
  obtain ⟨⟨ip1, fs1⟩, hialloc, hc⟩ := bind_eq_ok.mp hc
  obtain ⟨h1, hk1⟩ := h.ialloc hialloc
  obtain ⟨fs2, hlock, hc⟩ := bind_eq_ok.mp hc
  obtain ⟨h2, hi2⟩ := h1.ilock hlock
  obtain ⟨fs4, hdots, hc⟩ := bind_eq_ok.mp hc
  obtain ⟨⟨ret, fs5⟩, hlink, hc⟩ := bind_eq_ok.mp hc
  set g := f + Pi.single dp 1 + Pi.single ip1 1 with hg
  have hgip : 0 < g ip1 := by simp [hg]
  have hgdp : 0 < g dp := by
    simp only [hg, Pi.add_apply, Pi.single_eq_same]
    omega
  set n := (fs1.icache ip1).inum with hn
  have hdp2 : (fs2.icache dp).inum ∈ insert n S := by
    rw [hi2, hk1 dp (by simp)]
    exact .inr hdp
  -- The new inode's fields, and then its entries when it is a directory.
  have h3 := h2.closed.write (n := (fs2.icache ip1).inum)
    (d := { node := (fs2.node ip1).setDev major minor, nlink := 1 }) (by rw [hi2]; exact .inl rfl)
    fun de hde _ => .inl (by rw [Node.ents_setDev] at hde; exact hde)
  have hg3 : Good (insert n S) r g _ := ⟨h3, h2.refs⟩
  have h4 : Good (insert n S) r g fs4 ∧ Keeps g fs1 fs4 := by
    obtain ⟨h4, hk4⟩ := hg3.createDots (by rw [Fs.setDinode_icache, hi2]; exact .inl rfl) hdp2
      hgip hgdp hdots
    exact ⟨h4, fun j hj => (hk4 j hj).trans (hi2 j)⟩
  have hdp4 : (fs4.icache dp).inum ∈ insert n S := by
    rw [h4.2 dp hgdp, ← hi2]
    exact hdp2
  have hip4 : (fs4.icache ip1).inum = n := h4.2 ip1 hgip
  obtain ⟨h5, hk5⟩ := h4.1.dirlink hdp4 (by rw [hip4]; exact .inl rfl) hlink
  dsimp only at hc
  split_ifs at hc
  obtain ⟨fs6, hput, hret⟩ := bind_eq_ok.mp hc
  obtain ⟨rfl, rfl⟩ := Prod.mk.inj (Except.ok.inj hret)
  obtain ⟨h6, hi6⟩ := h5.swap.iunlockput hput
  have hkeep : Keeps g fs1 fs6 := fun j hj => (hi6 j).trans ((hk5 j hj).trans (h4.2 j hj))
  rw [hkeep ip1 hgip]
  refine ⟨h6, fun j hj => ?_⟩
  rw [hkeep j (by simp only [hg, Pi.add_apply]; omega)]
  exact hk1 j (by simp only [Pi.add_apply]; omega)

theorem Good.unlinkEntry (h : Good S r (f + Pi.single dp 1 + Pi.single ip 1) fs)
    (hdp : (fs.icache dp).inum ∈ S) (hip : (fs.icache ip).inum ∈ S)
    (hu : unlinkEntry fs dp ip off = .ok fs') :
    Good S r f fs' ∧ ∀ j, (fs'.icache j).inum = (fs.icache j).inum := by
  obtain ⟨fs3, hput, hu⟩ := bind_eq_ok.mp hu
  set fs1 := fs.setEnts dp
    (writeDirent (fs.node dp).ents off { inum := 0, name := List.replicate DIRSIZ 0 })
  have h1 : Good S r (f + Pi.single dp 1 + Pi.single ip 1) fs1 :=
    h.setEnts hdp fun h0 => absurd rfl h0
  have h2 : Good S r (f + Pi.single ip 1) fs3 ∧ ∀ j, (fs3.icache j).inum = (fs.icache j).inum := by
    split_ifs at hput
    · exact (h1.swap.setNlink hdp _).iunlockput hput
    · exact h1.swap.iunlockput hput
  obtain ⟨h4, hi4⟩ := (h2.1.setNlink (i := ip) (by rw [h2.2]; exact hip) _).iunlockput hu
  exact ⟨h4, fun j => (hi4 j).trans (h2.2 j)⟩

theorem Good.unlinkIn (h : Good S r (f + Pi.single dp 1) fs) (hdp : (fs.icache dp).inum ∈ S)
    (hu : unlinkIn fs dp name = .ok (ret, fs')) : Good S r f fs' ∧ Keeps f fs fs' := by
  -- Both refusals drop `dp` and nothing else.
  have hbad : ∀ fs1, (do
      let fs ← Dockv6.iunlockput fs1 dp
      return ((-1 : Int), fs)) = Except.ok (ret, fs') → Good S r (f + Pi.single dp 1) fs1 →
      Keeps f fs fs1 → Good S r f fs' ∧ Keeps f fs fs' := by
    intro fs1 hret hg hk
    obtain ⟨fs2, hput, hret⟩ := bind_eq_ok.mp hret
    cases hret
    obtain ⟨h1, hi1⟩ := hg.iunlockput hput
    exact ⟨h1, fun j hj => (hi1 j).trans (hk j hj)⟩
  unfold Dockv6.unlinkIn at hu
  by_cases hdots : namecmp name.bytes [46] = 0 ∨ namecmp name.bytes [46, 46] = 0
  · rw [if_pos hdots] at hu
    exact hbad fs hu h fun _ _ => rfl
  rw [if_neg hdots] at hu
  obtain ⟨⟨found, fs1⟩, hlook, hrest⟩ := bind_eq_ok.mp hu
  rcases found with _ | ⟨ip, off⟩
  · obtain ⟨-, -, -, rfl, -⟩ := dirlookup_spec hlook
    exact hbad _ hrest h fun _ _ => rfl
  obtain ⟨h1, hk1, hentry⟩ := h.dirlookup hlook
  obtain ⟨fs2, hlock, hrest⟩ := bind_eq_ok.mp hrest
  obtain ⟨h2, hi2⟩ := h1.ilock hlock
  have hk2 : Keeps (f + Pi.single dp 1) fs fs2 := fun j hj => (hi2 j).trans (hk1 j hj)
  have hk2' : Keeps f fs fs2 := hk2.mono fun j => Nat.le_add_right _ _
  have hdp2 : (fs2.icache dp).inum ∈ S := by
    rw [hk2 dp (by simp)]
    exact hdp
  -- The entry removed is not `..`, so the inode it names is in the region.
  have hip2 : (fs2.icache ip).inum ∈ S := by
    rw [hi2]
    refine h.closed.enclosed _ hdp name _ hentry fun ⟨_, hname⟩ => hdots (.inr ?_)
    rw [hname]
    decide
  split_ifs at hrest
  · obtain ⟨fs3, hput3, hrest⟩ := bind_eq_ok.mp hrest
    obtain ⟨h3, hi3⟩ := h2.iunlockput hput3
    exact hbad _ hrest h3 fun j hj => (hi3 j).trans (hk2' j hj)
  · obtain ⟨fs3, hunl, hrest⟩ := bind_eq_ok.mp hrest
    cases hrest
    obtain ⟨h3, hi3⟩ := h2.unlinkEntry hdp2 hip2 hunl
    exact ⟨h3, fun j hj => (hi3 j).trans (hk2' j hj)⟩

end Good

end Dockv6
