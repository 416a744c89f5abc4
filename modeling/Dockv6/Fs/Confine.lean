import Dockv6.Fs.Region

/-!
# Confinement of a container to its directory

A process in a container looks up absolute paths from the container's root. The path `..` itself is
overwritten; in any other path the name `..` is looked up like every other name, also at the
container's root. `StaysIn` says that the names after it lead back.
-/

namespace Dockv6

/-- Each time the lookup follows `..` at the root `r` of the container, the names after it lead back
into the subtree of `r`. -/
def StaysIn (fs : Fs) (ctx : PathCtx) (r : ℕ) (path : Bytes) (nameiparent : Bool) : Prop :=
  Returns fs.entry (Subtree fs r) r Name.dotdot (startInum ctx fs path)
    (followed nameiparent (namesOf ctx path))

theorem startInum_mem {S : Set ℕ} (ctx : PathCtx) {fs : Fs} {rt : Slot}
    (hcid : 0 < ctx.container_id) (hroot : ctx.root = some rt) (hr : (fs.icache rt).inum ∈ S)
    (hcwd : (fs.icache ctx.cwd).inum ∈ S) (path : Bytes) : startInum ctx fs path ∈ S := by
  unfold startInum
  split_ifs
  · rw [hroot]
    exact hr
  · exact hcwd

/-! ## What the process holds between and during calls -/

/-- The region of the process: the inodes `S0` and those that it made. -/
def region (S0 : Set ℕ) (s : Session) : Set ℕ := {n | n ∈ S0 ∨ n ∈ s.made}

/-- The process is in the container with the root inode `r`, which `rt` stands for; its working
directory and what it was given lie in its region, which is closed. The call in progress holds the
references `e`. -/
structure Confined (S0 : Set ℕ) (rt : Slot) (r : ℕ) (e : Slot → ℕ) (s : Session) : Prop where
  cid : 0 < s.container_id
  root : s.root = some rt
  inum_root : s.inum rt = r
  mem_root : r ∈ S0
  cwd : s.inum s.cwd ∈ region S0 s
  given : ∀ n ∈ s.given, n ∈ region S0 s
  good : ∃ rest : Slot → ℕ,
    Good (region S0 s) r (rest + Pi.single rt 1 + Pi.single s.cwd 1 + e) s.fs

section Calls

variable {S0 : Set ℕ} {rt ip dp : Slot} {r : ℕ} {e e' : Slot → ℕ} {s s' : Session} {fs' : Fs}
  {path : Bytes} {par : Bool} {name : Name} {ret : Int}

/-- A part of a call that changes the file system only. -/
theorem Confined.withFs (h : Confined S0 rt r e s)
    (hfs : ∀ f, Good (region S0 s) r (f + e) s.fs →
      Good (region S0 s) r (f + e') fs' ∧ Keeps f s.fs fs') :
    Confined S0 rt r e' { s with fs := fs' } := by
  obtain ⟨rest, hg⟩ := h.good
  obtain ⟨hg', hk⟩ := hfs _ hg
  have hrt : (fs'.icache rt).inum = s.inum rt :=
    hk rt (by simp only [Pi.add_apply, Pi.single_eq_same]; omega)
  have hcwd : (fs'.icache s.cwd).inum = s.inum s.cwd := hk s.cwd (by simp)
  refine ⟨h.cid, h.root, hrt.trans h.inum_root, h.mem_root, ?_, h.given, rest, hg'⟩
  rw [show Session.inum { s with fs := fs' } s.cwd = s.inum s.cwd from hcwd]
  exact h.cwd

theorem Confined.iunlockput (h : Confined S0 rt r (Pi.single ip 1) s)
    (hp : iunlockput s.fs ip = .ok fs') : Confined S0 rt r 0 { s with fs := fs' } :=
  h.withFs fun f hg => by
    obtain ⟨hg', hi⟩ := hg.iunlockput hp
    exact ⟨hg', fun j _ => hi j⟩

theorem Confined.ilock (h : Confined S0 rt r e s) (hl : ilock s.fs ip = .ok fs') :
    Confined S0 rt r e { s with fs := fs' } :=
  h.withFs fun f hg => by
    obtain ⟨hg', hi⟩ := hg.ilock hl
    exact ⟨hg', fun j _ => hi j⟩

theorem Confined.give (h : Confined S0 rt r e s) (hip : s.inum ip ∈ region S0 s) :
    Confined S0 rt r e (s.give ip) := by
  refine ⟨h.cid, h.root, h.inum_root, h.mem_root, h.cwd, fun n hn => ?_, h.good⟩
  rcases List.mem_cons.mp hn with rfl | hn
  · exact hip
  · exact h.given n hn

theorem Confined.createIn {type : IType} {major minor : ℕ}
    (h : Confined S0 rt r (Pi.single dp 1) s) (hdp : s.inum dp ∈ region S0 s)
    (hc : createIn s.fs dp name type major minor = .ok (ip, fs')) :
    Confined S0 rt r (Pi.single ip 1)
      (Session.give { s with fs := fs', made := (fs'.icache ip).inum :: s.made } ip) := by
  obtain ⟨rest, hg⟩ := h.good
  obtain ⟨hg', hk⟩ := hg.createIn hdp hc
  set s1 : Session := { s with fs := fs', made := (fs'.icache ip).inum :: s.made } with hs1
  have hregion : region S0 s1 = insert (fs'.icache ip).inum (region S0 s) := by
    ext n
    simp only [region, hs1, List.mem_cons, Set.mem_ofPred_eq, Set.mem_insert_iff]
    tauto
  have hsub : region S0 s ⊆ region S0 s1 := by
    rw [hregion]
    exact Set.subset_insert _ _
  have hrt : (fs'.icache rt).inum = s.inum rt :=
    hk rt (by simp only [Pi.add_apply, Pi.single_eq_same]; omega)
  have hcwd : (fs'.icache s.cwd).inum = s.inum s.cwd := hk s.cwd (by simp)
  have h1 : Confined S0 rt r (Pi.single ip 1) s1 := by
    refine ⟨h.cid, h.root, hrt.trans h.inum_root, h.mem_root, ?_, fun n hn => hsub (h.given n hn),
      rest, ?_⟩
    · rw [show s1.inum s1.cwd = s.inum s.cwd from hcwd]
      exact hsub h.cwd
    · rw [hregion]
      exact hg'
  refine h1.give ?_
  rw [hregion]
  exact .inl rfl

/-- A lookup that stays in gives the process an inode of its region. -/
theorem Confined.lookup {res : Option (Slot × Name)} (h : Confined S0 rt r 0 s)
    (hpath : StaysIn s.fs s.ctx r path par) (hl : lookup s path par = .ok (res, s')) :
    Confined S0 rt r (heldBy res) s' ∧
      ∀ ip name, res = some (ip, name) → s'.inum ip ∈ region S0 s' := by
  obtain ⟨⟨res', fs'⟩, hnamex, hret⟩ := bind_eq_ok.mp hl
  have hfs : Confined S0 rt r (heldBy res') { s with fs := fs' } :=
    h.withFs fun f hg => by
      obtain ⟨hrefs, hk⟩ := namex_refs hnamex hg.refs
      exact ⟨⟨hg.closed.shrinks (namex_frees hnamex).shrinks, hrefs⟩, hk⟩
  rcases res' with _ | ⟨ip, name⟩
  · obtain ⟨rfl, rfl⟩ := Prod.mk.inj (Except.ok.inj hret)
    exact ⟨hfs, nofun⟩
  · obtain ⟨rfl, rfl⟩ := Prod.mk.inj (Except.ok.inj hret)
    have hmem : (fs'.icache ip).inum ∈ region S0 s := by
      obtain ⟨rest, hg⟩ := h.good
      have hr : r ∈ region S0 s := .inl h.mem_root
      have hrt : (s.fs.icache rt).inum ∈ region S0 s := by
        rw [show (s.fs.icache rt).inum = r from h.inum_root]
        exact hr
      have hstart : startInum s.ctx s.fs path ∈ region S0 s :=
        startInum_mem s.ctx h.cid h.root hrt h.cwd path
      exact mem_of_returns hg.closed.enclosed hstart _ (namex_walk hnamex)
        (hpath.mono (hg.closed.subtree_subset hr))
    refine ⟨hfs.give hmem, fun ip' name' heq => ?_⟩
    obtain ⟨rfl, rfl⟩ := Prod.mk.inj (Option.some.inj heq)
    exact hmem

/-- What `create` returns is in the region, which a new inode joins. -/
theorem Confined.create {type : IType} {major minor : ℕ} {res : Option Slot}
    (h : Confined S0 rt r 0 s) (hpath : StaysIn s.fs s.ctx r path true)
    (hc : create s path type major minor = .ok (res, s')) :
    Confined S0 rt r (match res with | none => 0 | some ip => Pi.single ip 1) s' := by
  obtain ⟨⟨r1, s1⟩, hl, hc⟩ := bind_eq_ok.mp hc
  obtain ⟨h1, hmem⟩ := h.lookup hpath hl
  rcases r1 with _ | ⟨dp, name⟩
  · obtain ⟨rfl, rfl⟩ := Prod.mk.inj (Except.ok.inj hc)
    exact h1
  have hdp := hmem dp name rfl
  obtain ⟨fs2, hlock, hc⟩ := bind_eq_ok.mp hc
  have h2 := h1.ilock hlock
  have hdp2 : (fs2.icache dp).inum ∈ region S0 s1 := by
    rw [((ilock_spec hlock).1 dp).2]
    exact hdp
  obtain ⟨⟨found, fs3⟩, hlook, hrest⟩ := bind_eq_ok.mp hc
  rcases found with _ | ⟨ip, off⟩
  · obtain ⟨-, -, -, rfl, -⟩ := dirlookup_spec hlook
    obtain ⟨⟨ip, fs4⟩, hin, hret⟩ := bind_eq_ok.mp hrest
    obtain ⟨rfl, rfl⟩ := Prod.mk.inj (Except.ok.inj hret)
    exact h2.createIn hdp2 hin
  · obtain ⟨fs4, hput, hrest⟩ := bind_eq_ok.mp hrest
    obtain ⟨fs5, hlock5, hrest⟩ := bind_eq_ok.mp hrest
    have h4 : Confined S0 rt r (Pi.single ip 1) { s1 with fs := fs4 } :=
      h2.withFs fun f hg => by
        obtain ⟨hg', hk, -, -⟩ := hg.dirlookup_put hlook hput
        exact ⟨hg', hk⟩
    have h5 := h4.ilock hlock5
    split_ifs at hrest with hfile
    · obtain ⟨rfl, rfl⟩ := Prod.mk.inj (Except.ok.inj hrest)
      refine h5.give ?_
      -- The file was one when the directory was read, and the directory is in the region.
      obtain ⟨rest, hg⟩ := h2.good
      obtain ⟨-, -, hentry, hshr⟩ := hg.dirlookup_put hlook hput
      obtain ⟨hi5, -, hdisk5⟩ := ilock_spec hlock5
      have hnode : (fs4.disk (fs4.icache ip).inum).node.isFile = true := by
        rw [← (hi5 ip).2, ← hdisk5]
        exact hfile.2
      have hmem4 := hg.closed.file_mem hdp2 hentry (hshr.isFile hnode)
      rw [show Session.inum { s1 with fs := fs5 } ip = (fs4.icache ip).inum from (hi5 ip).2]
      exact hmem4
    · obtain ⟨fs6, hput6, hret⟩ := bind_eq_ok.mp hrest
      obtain ⟨rfl, rfl⟩ := Prod.mk.inj (Except.ok.inj hret)
      exact h5.iunlockput hput6

theorem Confined.openFd {ffree : Bool} (h : Confined S0 rt r (Pi.single ip 1) s)
    (ho : openFd s ip ffree = .ok (ret, s')) : Confined S0 rt r 0 s' := by
  have hput : ∀ {ret'}, (do
      let fs ← Dockv6.iunlockput s.fs ip
      return ((ret' : Int), { s with fs := fs })) = Except.ok (ret, s') →
          Confined S0 rt r 0 s' := by
    intro ret' ho
    obtain ⟨fs1, hput, hret⟩ := bind_eq_ok.mp ho
    obtain ⟨rfl, rfl⟩ := Prod.mk.inj (Except.ok.inj hret)
    exact h.iunlockput hput
  unfold Dockv6.openFd at ho
  split at ho
  · split_ifs at ho
    · obtain ⟨fs1, hun, hret⟩ := bind_eq_ok.mp ho
      obtain ⟨rfl, rfl⟩ := Prod.mk.inj (Except.ok.inj hret)
      obtain ⟨rfl, -⟩ := iunlock_spec hun
      -- The reference of the call becomes the file's.
      obtain ⟨rest, hg⟩ := h.good
      refine ⟨h.cid, h.root, h.inum_root, h.mem_root, h.cwd, h.given, rest + Pi.single ip 1,
        hg.congr fun j => ?_⟩
      simp only [Pi.add_apply, Pi.zero_apply]
      omega
    · exact hput ho
  · exact hput ho

theorem Confined.sysOpen {ocreate rdonly ffree : Bool} (h : Confined S0 rt r 0 s)
    (hpath : StaysIn s.fs s.ctx r path ocreate)
    (ho : sysOpen s path ocreate rdonly ffree = .ok (ret, s')) : Confined S0 rt r 0 s' := by
  unfold Dockv6.sysOpen at ho
  cases ocreate with
  | true =>
    obtain ⟨⟨res, s1⟩, hc, hrest⟩ := bind_eq_ok.mp ho
    have h1 := h.create hpath hc
    rcases res with _ | ip
    · obtain ⟨rfl, rfl⟩ := Prod.mk.inj (Except.ok.inj hrest)
      exact h1
    · exact h1.openFd hrest
  | false =>
    obtain ⟨⟨res, s1⟩, hl, hrest⟩ := bind_eq_ok.mp ho
    obtain ⟨h1, -⟩ := h.lookup hpath hl
    rcases res with _ | ⟨ip, name⟩
    · obtain ⟨rfl, rfl⟩ := Prod.mk.inj (Except.ok.inj hrest)
      exact h1
    · obtain ⟨fs2, hlock, hrest⟩ := bind_eq_ok.mp hrest
      have h2 := h1.ilock hlock
      split_ifs at hrest
      · obtain ⟨fs3, hput, hret⟩ := bind_eq_ok.mp hrest
        obtain ⟨rfl, rfl⟩ := Prod.mk.inj (Except.ok.inj hret)
        exact h2.iunlockput hput
      · exact h2.openFd hrest

theorem Confined.sysMkdir (h : Confined S0 rt r 0 s) (hpath : StaysIn s.fs s.ctx r path true)
    (hm : sysMkdir s path = .ok (ret, s')) : Confined S0 rt r 0 s' := by
  obtain ⟨⟨res, s1⟩, hc, hrest⟩ := bind_eq_ok.mp hm
  have h1 := h.create hpath hc
  rcases res with _ | ip
  · obtain ⟨rfl, rfl⟩ := Prod.mk.inj (Except.ok.inj hrest)
    exact h1
  · obtain ⟨fs2, hput, hret⟩ := bind_eq_ok.mp hrest
    obtain ⟨rfl, rfl⟩ := Prod.mk.inj (Except.ok.inj hret)
    exact h1.iunlockput hput

theorem Confined.sysUnlink (h : Confined S0 rt r 0 s) (hpath : StaysIn s.fs s.ctx r path true)
    (hu : sysUnlink s path = .ok (ret, s')) : Confined S0 rt r 0 s' := by
  obtain ⟨⟨res, s1⟩, hl, hrest⟩ := bind_eq_ok.mp hu
  obtain ⟨h1, hmem⟩ := h.lookup hpath hl
  rcases res with _ | ⟨dp, name⟩
  · obtain ⟨rfl, rfl⟩ := Prod.mk.inj (Except.ok.inj hrest)
    exact h1
  · obtain ⟨fs2, hlock, hrest⟩ := bind_eq_ok.mp hrest
    obtain ⟨⟨ret3, fs3⟩, hin, hret⟩ := bind_eq_ok.mp hrest
    obtain ⟨rfl, rfl⟩ := Prod.mk.inj (Except.ok.inj hret)
    have hdp2 : (fs2.icache dp).inum ∈ region S0 s1 := by
      rw [((ilock_spec hlock).1 dp).2]
      exact hmem dp name rfl
    exact (h1.ilock hlock).withFs fun f hg => hg.unlinkIn hdp2 hin

theorem Confined.sysExec {loads : Bool} (h : Confined S0 rt r 0 s)
    (hpath : StaysIn s.fs s.ctx r path false) (he : sysExec s path loads = .ok (ret, s')) :
    Confined S0 rt r 0 s' := by
  obtain ⟨⟨res, s1⟩, hl, hrest⟩ := bind_eq_ok.mp he
  obtain ⟨h1, -⟩ := h.lookup hpath hl
  rcases res with _ | ⟨ip, name⟩
  · obtain ⟨rfl, rfl⟩ := Prod.mk.inj (Except.ok.inj hrest)
    exact h1
  · obtain ⟨fs2, hlock, hrest⟩ := bind_eq_ok.mp hrest
    obtain ⟨fs3, hput, hret⟩ := bind_eq_ok.mp hrest
    obtain ⟨rfl, rfl⟩ := Prod.mk.inj (Except.ok.inj hret)
    exact (h1.ilock hlock).iunlockput hput

theorem Confined.sysChdir (h : Confined S0 rt r 0 s) (hpath : StaysIn s.fs s.ctx r path false)
    (hc : sysChdir s path = .ok (ret, s')) : Confined S0 rt r 0 s' := by
  obtain ⟨⟨res, s1⟩, hl, hrest⟩ := bind_eq_ok.mp hc
  obtain ⟨h1, hmem⟩ := h.lookup hpath hl
  rcases res with _ | ⟨ip, name⟩
  · obtain ⟨rfl, rfl⟩ := Prod.mk.inj (Except.ok.inj hrest)
    exact h1
  · obtain ⟨fs2, hlock, hrest⟩ := bind_eq_ok.mp hrest
    have h2 := h1.ilock hlock
    split_ifs at hrest
    · obtain ⟨fs3, hput, hret⟩ := bind_eq_ok.mp hrest
      obtain ⟨rfl, rfl⟩ := Prod.mk.inj (Except.ok.inj hret)
      exact h2.iunlockput hput
    · obtain ⟨fs3, hun, hret⟩ := bind_eq_ok.mp hrest
      obtain ⟨rfl, rfl⟩ := Prod.mk.inj (Except.ok.inj hret)
      obtain ⟨hfs3, -⟩ := iunlock_spec hun
      subst hfs3
      -- The reference of the call becomes the one of the working directory, in place of the old.
      obtain ⟨rest, hg⟩ := h2.good
      have hi := (iput_spec fs3 s1.cwd).2.1
      refine ⟨h2.cid, h2.root, (hi rt).trans h2.inum_root, h2.mem_root, ?_, h2.given, rest, ?_⟩
      · rw [show Session.inum { s1 with fs := iput fs3 s1.cwd, cwd := ip } ip = (fs3.icache ip).inum
          from hi ip, ((ilock_spec hlock).1 ip).2]
        exact hmem ip name rfl
      · refine Good.iput (i := s1.cwd) (hg.congr fun j => ?_)
        simp only [Pi.add_apply, Pi.zero_apply, heldBy, Round.held]
        omega

theorem Confined.step {c : PathCall} (h : Confined S0 rt r 0 s)
    (hpath : StaysIn s.fs s.ctx r c.path c.nameiparent) (hrun : c.run s = .ok (ret, s')) :
    Confined S0 rt r 0 s' := by
  cases c with
  | chdir p => exact h.sysChdir hpath hrun
  | «open» p ocreate rdonly ffree => exact h.sysOpen hpath hrun
  | exec p loads => exact h.sysExec hpath hrun
  | mkdir p => exact h.sysMkdir hpath hrun
  | unlink p => exact h.sysUnlink hpath hrun

end Calls

/-! ## Confinement -/

/-- A lookup that returns an inode returns one of the container's subtree exactly when it stays
in. -/
theorem namex_mem_iff {fs fs' : Fs} {ctx : PathCtx} {rt ip : Slot} {path : Bytes} {par : Bool}
    {name : Name} (htree : DirTree fs) (hcid : 0 < ctx.container_id) (hroot : ctx.root = some rt)
    (hcwd : (fs.icache ctx.cwd).inum ∈ Subtree fs (fs.icache rt).inum)
    (h : namex ctx fs path par = .ok (some (ip, name), fs')) :
    (fs'.icache ip).inum ∈ Subtree fs (fs.icache rt).inum ↔
      StaysIn fs ctx (fs.icache rt).inum path par :=
  walk_mem_iff (htree.closed _).enclosed
    (startInum_mem ctx hcid hroot Relation.ReflTransGen.refl hcwd path) (namex_walk h)

/-- A process in a container with its working directory in the subtree of the container's root, on
a disk that holds a directory tree. -/
structure InContainer (rt : Slot) (s : Session) : Prop where
  tree : DirTree s.fs
  cid : 0 < s.container_id
  root : s.root = some rt
  cwd : s.inum s.cwd ∈ Subtree s.fs (s.inum rt)

/-- Such a process between calls: the references to its two directories are counted, and it has
not been given anything yet. -/
structure Fresh (rt : Slot) (s : Session) : Prop extends InContainer rt s where
  refs : ∃ rest : Slot → ℕ, Refs s.fs (rest + Pi.single rt 1 + Pi.single s.cwd 1)
  given : s.given = []
  made : s.made = []

theorem Fresh.confined {rt : Slot} {s : Session} (h : Fresh rt s) :
    Confined (Subtree s.fs (s.inum rt)) rt (s.inum rt) 0 s := by
  have hregion : region (Subtree s.fs (s.inum rt)) s = Subtree s.fs (s.inum rt) := by
    ext n
    simp [region, h.made]
  obtain ⟨rest, hrefs⟩ := h.refs
  refine ⟨h.cid, h.root, rfl, .refl, ?_, ?_, rest, ?_⟩
  · rw [hregion]
    exact h.cwd
  · rw [h.given]
    nofun
  · rw [hregion]
    exact ⟨h.tree.closed _, hrefs⟩

theorem callMachine_confined {rt : Slot} {s0 s : Session} (h0 : Fresh rt s0)
    (h : (callMachine s0).Reach
      (fun s c => StaysIn s.fs s.ctx (s0.inum rt) c.path c.nameiparent) s) :
    Confined (Subtree s0.fs (s0.inum rt)) rt (s0.inum rt) 0 s := by
  refine h.invariant (fun s hs => ?_) fun s t c hs hpath hstep => ?_
  · rw [show s = s0 from hs]
    exact h0.confined
  · obtain ⟨⟨ret, t'⟩, hrun, rfl⟩ := Option.map_eq_some_iff.mp hstep
    exact hs.step hpath (toOption_eq_some.mp hrun)

/-- **Confinement to the container's subtree.** A lookup ends in the subtree exactly when the names
after each `..` followed at the container's root lead back into it. In a run all of whose lookups
are so, the process is only ever given inodes of the subtree and inodes it made. -/
theorem container_confinement (rt : Slot) :
    (∀ s, InContainer rt s → ∀ path par ip name fs',
      namex s.ctx s.fs path par = .ok (some (ip, name), fs') →
        ((fs'.icache ip).inum ∈ Subtree s.fs (s.inum rt) ↔
          StaysIn s.fs s.ctx (s.inum rt) path par)) ∧
    ∀ s0, Fresh rt s0 → ∀ s, (callMachine s0).Reach
      (fun s c => StaysIn s.fs s.ctx (s0.inum rt) c.path c.nameiparent) s →
      ∀ n, n ∈ s.given ∨ n = s.inum s.cwd → n ∈ Subtree s0.fs (s0.inum rt) ∨ n ∈ s.made := by
  refine ⟨fun s hs path par ip name fs' h => ?_, fun s0 h0 s h n hn => ?_⟩
  · exact namex_mem_iff hs.tree hs.cid hs.root hs.cwd h
  · have hs := callMachine_confined h0 h
    rcases hn with hn | rfl
    · exact hs.given n hn
    · exact hs.cwd

/-! ## A container below the root directory

The root directory `1` holds the directory `2`, under the name `c`, which is the root and the
working directory of a process in a container. -/

/-- The entries of `/`. -/
def entsRoot : List Dirent := [⟨1, [46]⟩, ⟨1, [46, 46]⟩, ⟨2, [99]⟩]

/-- The entries of `/c`. -/
def entsC : List Dirent := [⟨2, [46]⟩, ⟨1, [46, 46]⟩]

/-- The disk with the directories `/` and `/c`. -/
def rootAndC : Fs where
  ninodes := 3
  disk
    | 1 => ⟨.dir entsRoot, 1⟩
    | 2 => ⟨.dir entsC, 1⟩
    | _ => ⟨.free, 0⟩
  icache i := if i = 0 then ⟨2, 2, false⟩ else ⟨0, 0, false⟩

/-- The process in the container of `/c`. -/
def inC : Session where
  fs := rootAndC
  container_id := 1
  root := some 0
  cwd := 0
  ofile _ := none
  given := []
  made := []

theorem rootAndC_ents {d : ℕ} {de : Dirent} (h : de ∈ (rootAndC.disk d).node.ents) :
    d = 1 ∧ de ∈ entsRoot ∨ d = 2 ∧ de ∈ entsC := by
  match d, h with
  | 1, h => exact .inl ⟨rfl, h⟩
  | 2, h => exact .inr ⟨rfl, h⟩

theorem rootAndC_child {d c : ℕ} : rootAndC.Child d c ↔ d = 1 ∧ c = 2 := by
  constructor
  · rintro ⟨de, hde, rfl, -, hlink⟩
    rcases rootAndC_ents hde with ⟨rfl, hmem⟩ | ⟨rfl, hmem⟩
    · have hroot : ∀ de ∈ entsRoot, de.isLink = true → de.inum = 2 := by decide
      exact ⟨rfl, hroot de hmem hlink⟩
    · have hc : ∀ de ∈ entsC, de.isLink = false := by decide
      rw [hc de hmem] at hlink
      cases hlink
  · rintro ⟨rfl, rfl⟩
    exact ⟨⟨2, [99]⟩, by decide, rfl, by decide, by decide⟩

theorem rootAndC_dirTree : DirTree rootAndC := by
  have hup : ∀ {c : ℕ} {de : Dirent}, de ∈ (rootAndC.disk c).node.ents →
      de.named .dotdot = true → de.inum = 1 := by
    intro c de hde
    have hboth : ∀ de ∈ entsRoot ++ entsC, de.named .dotdot = true → de.inum = 1 := by decide
    rcases rootAndC_ents hde with ⟨rfl, hmem⟩ | ⟨rfl, hmem⟩
    · exact hboth de (List.mem_append_left _ hmem)
    · exact hboth de (List.mem_append_right _ hmem)
  refine ⟨fun d de hde _ hdot => ?_, fun c de hde _ hdd => ?_, fun c de hde _ hdd d hd => ?_⟩
  · rcases rootAndC_ents hde with ⟨rfl, hmem⟩ | ⟨rfl, hmem⟩
    · have hroot : ∀ de ∈ entsRoot, de.named .dot = true → de.inum = 1 := by decide
      exact hroot de hmem hdot
    · have hc : ∀ de ∈ entsC, de.named .dot = true → de.inum = 2 := by decide
      exact hc de hmem hdot
  · rw [rootAndC_child, hup hde hdd]
    rcases rootAndC_ents hde with ⟨rfl, -⟩ | ⟨rfl, -⟩
    · exact .inr ⟨rfl, rfl⟩
    · exact .inl ⟨rfl, rfl⟩
  · rw [(rootAndC_child.mp hd).1, hup hde hdd]

theorem rootAndC_subtree : Subtree rootAndC 2 = {2} := by
  ext n
  refine ⟨fun hn => ?_, fun hn => ?_⟩
  · obtain rfl | ⟨c, hc, -⟩ := Relation.ReflTransGen.cases_head hn
    · rfl
    · exact absurd (rootAndC_child.mp hc).1 (by decide)
  · rw [Set.mem_singleton_iff.mp hn]
    exact Relation.ReflTransGen.refl

theorem inC_fresh : Fresh 0 inC where
  tree := rootAndC_dirTree
  cid := by decide
  root := rfl
  cwd := Relation.ReflTransGen.refl
  refs := ⟨0, by unfold Refs; decide⟩
  given := rfl
  made := rfl

/-- The process of `/c` looks up `/..` and is given the root directory. -/
theorem namex_leaves_container : InContainer 0 inC ∧ ∃ ip name fs',
    namex inC.ctx inC.fs [47, 46, 46] false = .ok (some (ip, name), fs') ∧
      (fs'.icache ip).inum ∉ Subtree inC.fs (inC.inum 0) := by
  refine ⟨inC_fresh.toInContainer, 1, _, _, rfl, ?_⟩
  rw [show Subtree inC.fs (inC.inum 0) = {2} from rootAndC_subtree]
  decide

/-- The process of `/c` looks up `/../c`: it leaves and comes back. -/
theorem container_confinement_inC : ∃ ip name fs',
    namex inC.ctx inC.fs [47, 46, 46, 47, 99] false = .ok (some (ip, name), fs') ∧
      StaysIn inC.fs inC.ctx (inC.inum 0) [47, 46, 46, 47, 99] false ∧
      ∀ s, (callMachine inC).Reach
        (fun s c => StaysIn s.fs s.ctx (inC.inum 0) c.path c.nameiparent) s →
        ∀ n, n ∈ s.given ∨ n = s.inum s.cwd → n ∈ Subtree inC.fs (inC.inum 0) ∨ n ∈ s.made := by
  refine ⟨0, _, _, rfl, ?_, (container_confinement 0).2 _ inC_fresh⟩
  refine ((container_confinement 0).1 inC inC_fresh.toInContainer _ _ _ _ _ rfl).mp ?_
  rw [show Subtree inC.fs (inC.inum 0) = {2} from rootAndC_subtree]
  decide

end Dockv6
