import Dockv6.Container.Machine
import Dockv6.File.Inodes
import Dockv6.Fs.Resolve
import Dockv6.Kernel.Enter
import Dockv6.Process.Inherit
import Dockv6.Vm.Room

/-!
# Is a container created in whole or not at all

`cm_create_and_enter` should either change nothing or leave a container with the limit and the root
that were asked for and a first process in it. It does not look at the results of `cm_setroot`,
`cm_maxproc` and `fork`.
-/

namespace Dockv6

open Kernel Function

variable {s s' : Kernel} {p np : PIdx} {d : Pgdir} {c : CIdx} {f : Slot → ℕ}
  {path path' init : Bytes} {n r : Int}
  {va : ℕ}

/-! ## The root -/

/-- The inode that the path stands for when the process looks it up. -/
def Kernel.resolves (s : Kernel) (p : PIdx) (path : Bytes) : Option ℕ :=
  s.fs.resolve (startInum (s.pathCtx p) s.fs path) (components (containerPath (s.pathCtx p) path))

/-- Does the process look the path up from the root of a container? -/
def Kernel.fromContainer (s : Kernel) (p : PIdx) (path : Bytes) : Prop :=
  0 < (s.proc p).container_id ∧ deref path = slash

instance : Decidable (s.fromContainer p path) := inferInstanceAs (Decidable (_ ∧ _))

/-- The inode that becomes the root of a new container. The container is the caller's already, and
has no root, when its path is looked up. -/
def Kernel.rootInum (s : Kernel) (p : PIdx) (path : Bytes) : Option ℕ :=
  if strlen path = 0 ∨ s.fromContainer p path then none else s.resolves p path

theorem deref_containerPath (ctx : PathCtx) (path : Bytes) :
    deref (containerPath ctx path) = slash ↔ deref path = slash := by
  unfold containerPath
  split_ifs with h
  · have hdot := (strncmp_eq_zero_iff path [46, 46] 3).mp h.2
    refine iff_of_false (show ¬ (46 : UInt8) = slash by decide) fun hslash => ?_
    rw [cstr_of_deref_ne_zero (by rw [hslash]; decide), hslash] at hdot
    cases hdot
  · rfl

theorem startInum_eq {ctx : PathCtx} {fs : Fs} (h : ¬ (0 < ctx.container_id ∧ deref path = slash)) :
    startInum ctx fs path = pathStart fs ctx.cwd (containerPath ctx path) := by
  unfold startInum pathStart
  split_ifs with hslash hid
  · exact absurd ⟨hid, (deref_containerPath ctx path).mp hslash⟩ h
  · rfl
  · rfl

/-- The root does not depend on the container of the caller. -/
theorem rootInum_congr {s1 s2 : Kernel} {q : PIdx} (hfs : s2.fs = s1.fs)
    (hid : (s2.proc q).container_id = (s1.proc p).container_id)
    (hcwd : (s2.proc q).cwd = (s1.proc p).cwd) : s2.rootInum q path = s1.rootInum p path := by
  have hfrom : s2.fromContainer q path ↔
      s1.fromContainer p path := by rw [fromContainer, fromContainer, hid]
  unfold rootInum
  by_cases hnone : strlen path = 0 ∨ s1.fromContainer p path
  · rw [if_pos hnone, if_pos (hnone.imp_right hfrom.mpr)]
  · have hout : ¬ s1.fromContainer p path := fun h => hnone (.inr h)
    have hpath : containerPath (s2.pathCtx q) path = containerPath (s1.pathCtx p) path := by
      unfold containerPath pathCtx
      rw [hid]
    have hcwd' : (s2.pathCtx q).cwd = (s1.pathCtx p).cwd := congrArg (Option.getD · 0) hcwd
    have hstart : ∀ {t : Kernel} {r : PIdx}, ¬ t.fromContainer r path →
      startInum (t.pathCtx r) t.fs path =
        pathStart t.fs (t.pathCtx r).cwd (containerPath (t.pathCtx r) path) :=
        fun h => startInum_eq h
    rw [if_neg hnone, if_neg fun h => hnone (h.imp_right hfrom.mp), resolves, resolves, hstart hout,
      hstart fun h => hout (hfrom.mp h), hpath, hcwd', hfs]

theorem rootInum_containerPath : s.rootInum p (containerPath (s.pathCtx p) path) =
    s.rootInum p path := by
  by_cases h : s.rewrites p path
  swap
  · have hsame : containerPath (s.pathCtx p) path = path := if_neg h
    rw [hsame]
  have hdots : (cstr path).take 3 = [46, 46] := (strncmp_eq_zero_iff path [46, 46] 3).mp h.2
  have hlong : strlen path ≠ 0 := fun h0 => by
    rw [List.length_eq_zero_iff.mp h0] at hdots
    cases hdots
  have hdot : strlen (containerPath (s.pathCtx p) path) ≠ 0 := by
    have hnew : containerPath (s.pathCtx p) path = strncpy path [46] 2 := if_pos h
    rw [hnew, strlen, cstr_dot]
    decide
  have hfrom : s.fromContainer p (containerPath (s.pathCtx p) path) ↔ s.fromContainer p path :=
    and_congr_right fun _ => deref_containerPath _ _
  have hsame : s.resolves p (containerPath (s.pathCtx p) path) = s.resolves p path := by
    unfold resolves startInum
    rw [containerPath_idem]
  simp only [rootInum, hlong, hdot, false_or, hfrom, hsame]

theorem cmSetroot_root {i : Slot} (h : cmSetroot s p d path (strlen path) c = .ok s')
    (hc : (s.proc p).container = some c) (hroot : (s.containers c).root = none)
    (htree : s.fs.Tree f) (hcwd : (s.proc p).cwd = some i) (hi : 0 < f i)
    (halive : s.fs.node i ≠ .free) :
    ∃ root fs mem, root.map (fun ip => (fs.icache ip).inum) = s.rootInum p path ∧
      s' = { s with containers := update s.containers c { s.containers c with root := root }
                    fs := fs, km := { s.km with mem := mem } } := by
  have hctx : (s.pathCtx p).cwd = i := by rw [pathCtx, hcwd]; rfl
  unfold cmSetroot at h
  split_ifs at h with hlen
  · cases h
    refine ⟨none, s.fs, s.km.mem, ?_, ?_⟩
    · rw [rootInum, if_pos (.inl (by omega))]
      rfl
    · rw [← hroot, update_eq_self]
  obtain ⟨⟨root, s1⟩, hnamei, h⟩ := bind_eq_ok.mp h
  obtain ⟨mem, -, h⟩ := bind_eq_ok.mp h
  cases h
  by_cases habs : s.fromContainer p path
  · have hnull : s.startsNull p path = true := by
      unfold startsNull
      rw [if_pos ((deref_containerPath _ _).mpr habs.2), pathCtx, hc]
      simp [habs.1, hroot]
    obtain ⟨rfl, mem1, rfl⟩ | ⟨hfalse, -⟩ := nameiProc_cases hnamei
    · refine ⟨none, s.fs, mem, ?_, rfl⟩
      rw [rootInum, if_pos (.inr habs)]
      rfl
    · rw [hnull] at hfalse
      cases hfalse
  · have hnull : s.startsNull p path = false := by
      unfold startsNull
      rw [hcwd]
      split_ifs with hslash
      · have hid : ¬ 0 < (s.proc p).container_id := fun hid =>
          habs ⟨hid, (deref_containerPath _ _).mp hslash⟩
        simp [hid]
      · rfl
    unfold nameiProc at hnamei
    rw [hnull, if_neg (by decide)] at hnamei
    obtain ⟨⟨r, fs⟩, hnamex, hnamei⟩ := bind_eq_ok.mp hnamei
    cases hnamei
    refine ⟨r.map Prod.fst, fs, mem, ?_, rfl⟩
    have hheld : StartHeld f s.fs (s.pathCtx p) (containerPath (s.pathCtx p) path) := by
      refine ⟨fun hslash hid => absurd ⟨hid, (deref_containerPath _ _).mp hslash⟩ habs, fun _ => ?_⟩
      rw [hctx]
      exact ⟨hi, halive⟩
    have hnamexed := namex_namexed path false htree hheld
    have hfound := (hnamexed.value hnamex).found rfl
    rw [rootInum, if_neg (not_or.mpr ⟨by omega, habs⟩), resolves, ← hfound, Option.map_map]
    rfl

theorem idupPtr_inums {o : Option Slot} (h : idupPtr s d o = .ok s') :
    ∃ fs mem, (∀ j, (fs.icache j).inum = (s.fs.icache j).inum) ∧
      s' = { s with fs := fs, km := { s.km with mem := mem } } := by
  unfold idupPtr at h
  split at h
  · rename_i ip
    cases h
    exact ⟨_, s.km.mem, (idup_spec s.fs ip).2.1, rfl⟩
  · obtain ⟨mem, -, h⟩ := bind_eq_ok.mp h
    cases h
    exact ⟨s.fs, mem, fun _ => rfl, rfl⟩

/-- The root becomes the caller's working directory. -/
theorem cmEnter_root {i : Slot} (h : cmEnter s p d path c = .ok s')
    (hroot : (s.containers c).root = none) (htree : s.fs.Tree f) (hcwd : (s.proc p).cwd = some i)
    (hi : 0 < f i) (halive : s.fs.node i ≠ .free) :
    ∃ root fs mem, root.map (fun ip => (fs.icache ip).inum) = s.rootInum p path ∧
      s' = { s.setProc p { s.proc p with container := some c, cwd := root } with
        containers := update s.containers c { s.containers c with root := root }
        fs := fs, km := { s.km with mem := mem } } := by
  obtain ⟨s1, hset, h⟩ := bind_eq_ok.mp h
  obtain ⟨s2, hdup, h⟩ := bind_eq_ok.mp h
  cases h
  obtain ⟨root, fs, mem, hinum, rfl⟩ := cmSetroot_root hset (by rw [setProc_self]) hroot htree
    (by rw [setProc_self]; exact hcwd) hi halive
  have hsame : (s.setProc p { s.proc p with container := some c }).rootInum p path =
      s.rootInum p path :=
    rootInum_congr rfl (by rw [setProc_self]) (by rw [setProc_self])
  rw [hsame] at hinum
  obtain ⟨fs', mem', hkept, rfl⟩ := idupPtr_inums hdup
  refine ⟨root, fs', mem', ?_, ?_⟩
  · rw [← hinum]
    exact congrArg (Option.map · root) (funext hkept)
  · simp only [Kernel.setProc, update_self, update_idem]

/-! ## The call up to its fork -/

/-- The caller has a current directory, containers that were never claimed have neither limit nor
root, and an entry for a shared page says where the caller has it. -/
structure CreateInput (f : Slot → ℕ) (s : Kernel) (p : PIdx) : Prop where
  live : s.live p
  tree : s.fs.Tree f
  cwd : ∃ i, (s.proc p).cwd = some i ∧ 0 < f i ∧ s.fs.node i ≠ .free
  blank : ∀ c, (s.containers c).container_id = UINT_MAX →
    (s.containers c).nproc = UINT_MAX ∧ (s.containers c).root = none
  nextcid : s.nextcid ≠ 0 ∧ s.nextcid ≠ UINT_MAX
  shared : ∀ d, (s.proc p).pgdir = some d → isCm (s.proc p).renamed.name = false →
    EntriesAt d (s.heldPages p)

/-- The limit that `cm_maxproc` leaves in a container without one. -/
def newLimit (n : Int) : ℕ := if (NPROC : Int) ≤ n then UINT_MAX else touint n

theorem cmMaxproc_new (hc : (s.proc p).container = some c) (hid : (s.proc p).container_id ≠ 0)
    (hn : (s.containers c).nproc = UINT_MAX) (n : Int) :
    (cmMaxproc s p n).2 = { s with
      containers := update s.containers c { s.containers c with nproc := newLimit n } } := by
  unfold cmMaxproc newLimit
  split_ifs with hle
  · have hsame : update s.containers c { s.containers c with nproc := UINT_MAX } =
        s.containers := by
      rw [← hn]
      exact update_eq_self ..
    rw [hsame]
  · rw [hc]
    dsimp only
    rw [if_neg (not_or.mpr ⟨not_not.mpr hn, hid⟩)]
    rfl

/-- The state after the container `c` has been claimed for the process. -/
def Kernel.claimed (s : Kernel) (p : PIdx) (c : CIdx) (mem : Mem) : Kernel :=
  { s.setProc p (s.proc p).renamed with
    containers := update s.containers c { s.containers c with container_id := s.nextcid }
    nextcid := s.nextcid + 1
    km := { s.km with mem := mem } }

theorem claimed_self {mem : Mem} : (s.claimed p c mem).proc p = (s.proc p).renamed :=
  setProc_self s p _

theorem claimed_container {mem : Mem} :
    (s.claimed p c mem).containers c = { s.containers c with container_id := s.nextcid } :=
  update_self ..

theorem cmClaim_claimed {o : Option CIdx} (h : cmClaim s p d init = .ok (o, s')) :
    (o = none ∧ s.freeContainer = none ∧ s' = s.setProc p (s.proc p).renamed) ∨
      ∃ c mem, o = some c ∧ s.freeContainer = some c ∧
        ustore d s.km.mem 0 (strncpyBytes init (strlen init)) = .ok mem ∧
        s' = s.claimed p c mem := by
  unfold cmClaim at h
  dsimp only at h
  split at h
  · rename_i hnone
    cases h
    exact .inl ⟨rfl, hnone, rfl⟩
  · rename_i c hfree
    obtain ⟨mem, hmem, h⟩ := bind_eq_ok.mp h
    cases h
    exact .inr ⟨c, mem, rfl, hfree, hmem, rfl⟩

/-- The state `s0` before the `fork`: the caller is in the container `c`, which has the root
`root`. -/
structure Entering (s : Kernel) (p : PIdx) (path : Bytes) (n : Int) (c : CIdx) (root : Option Slot)
    (s0 : Kernel) : Prop where
  caller : s0.proc p = (s.proc p).entered c root s.nextcid
  others : ∀ q, q ≠ p → s0.proc q = s.proc q
  containers : s0.containers =
    update s.containers c { container_id := s.nextcid, nproc := newLimit n, root := root }
  shm : s0.shm = s.shm
  free : s0.km.free = s.km.free
  inum : root.map (fun ip => (s0.fs.icache ip).inum) = s.rootInum p path

theorem CreateInput.entering {mem : Mem} {s2 : Kernel} (hin : CreateInput f s p)
    (hfree : s.freeContainer = some c)
    (henter : cmEnter (s.claimed p c mem) p d path c = .ok s2) :
    ∃ root, Entering s p path n c root (cmMove s2 p c n) := by
  obtain ⟨i, hi, hfi, halive⟩ := hin.cwd
  obtain ⟨hnproc, hroot⟩ := hin.blank c (freeContainer_eq_some hfree)
  obtain ⟨hzero, hmax⟩ := hin.nextcid
  obtain ⟨root, fs, mem', hinum, rfl⟩ :=
    cmEnter_root henter (by rw [claimed_container, hroot]) hin.tree
    (by rw [claimed_self]; exact hi) hfi halive
  have hsame : (s.claimed p c mem).rootInum p path = s.rootInum p path :=
    rootInum_congr rfl (by rw [claimed_self]; rfl) (by rw [claimed_self]; rfl)
  refine ⟨root, ?_⟩
  rw [cmMove, cmMaxproc_new (c := c)]
  · refine ⟨?_, fun q hq => ?_, ?_, rfl, rfl, hinum.trans hsame⟩
    · simp [Kernel.setProc, Proc.entered, Proc.renamed, Kernel.claimed]
    · simp [Kernel.setProc, Kernel.claimed, update_of_ne hq]
    · simp [Kernel.setProc, Kernel.claimed]
  · simp
  · simpa [claimed_container] using hzero
  · simpa [claimed_container] using hnproc

/-- The string at the address `fs` when `init` has been written to the address `0`. -/
def Kernel.PathAfter (s : Kernel) (d : Pgdir) (init : Bytes) (fs : ℕ) (path : Bytes) : Prop :=
  ∃ mem, ustore d s.km.mem 0 (strncpyBytes init (strlen init)) = .ok mem ∧
    ustring d mem KERNBASE fs = .ok path

theorem Kernel.PathAfter.unique (h : s.PathAfter d init va path)
    (h' : s.PathAfter d init va path') : path = path' := by
  obtain ⟨mem, hmem, hpath⟩ := h
  obtain ⟨mem', hmem', hpath'⟩ := h'
  obtain rfl := Except.ok.inj (hmem.symm.trans hmem')
  exact Except.ok.inj (hpath.symm.trans hpath')

theorem cmCreateAt_steps (hin : CreateInput f s p) (hd : (s.proc p).pgdir = some d)
    (h : cmCreateAt s p init va n = .ok (r, s')) :
    (r = -1 ∧ s.freeContainer = none ∧ s' = s.setProc p (s.proc p).renamed) ∨
      ∃ path c root s0 r' s1, r = 1 ∧ s.freeContainer = some c ∧ s.PathAfter d init va path ∧
        Entering s p path n c root s0 ∧ fork s0 p = .ok (r', s1) ∧ s' = cmLeave s1 p := by
  unfold cmCreateAt at h
  rw [hd] at h
  obtain ⟨⟨o, s0⟩, hclaim, h⟩ := bind_eq_ok.mp h
  obtain ⟨rfl, hnone, rfl⟩ | ⟨c, mem, rfl, hfree, hmem, rfl⟩ := cmClaim_claimed hclaim
  · cases h
    exact .inl ⟨rfl, hnone, rfl⟩
  obtain ⟨⟨path', s2⟩, hfetch, h⟩ := bind_eq_ok.mp h
  obtain ⟨path, hpath, hfetch⟩ := bind_eq_ok.mp hfetch
  obtain ⟨s3, henter, h⟩ := bind_eq_ok.mp h
  obtain ⟨⟨r', s4⟩, hfork, h⟩ := bind_eq_ok.mp h
  cases h
  have hctx : containerPath ((s.claimed p c mem).pathCtx p) path = containerPath
      (s.pathCtx p) path := by
    unfold containerPath pathCtx
    rw [claimed_self]
    rfl
  suffices hentering : ∃ root, Entering s p path n c root (cmMove s3 p c n) by
    obtain ⟨root, he⟩ := hentering
    exact .inr ⟨path, c, root, _, r', s4, rfl, hfree, ⟨mem, hmem, hpath⟩, he, hfork, rfl⟩
  split_ifs at hfetch with hdots
  · obtain ⟨mem', -, hfetch⟩ := bind_eq_ok.mp hfetch
    cases hfetch
    obtain ⟨root, he⟩ := hin.entering (n := n) hfree henter
    refine ⟨root, he.caller, he.others, he.containers, he.shm, he.free, he.inum.trans ?_⟩
    rw [hctx, rootInum_containerPath]
  · cases hfetch
    exact hin.entering hfree henter

/-! ## The fork -/

/-- A process that a `fork` of `p` has made, as far as it has it from `p`. -/
structure Newborn (s : Kernel) (p np : PIdx) (s' : Kernel) : Prop where
  unused : (s.proc np).state = .UNUSED
  runnable : (s'.proc np).state = .RUNNABLE
  container : (s'.proc np).container = (s.proc p).container
  container_id : (s'.proc np).container_id = (s.proc p).container_id
  cwd : (s'.proc np).cwd = (s.proc p).cwd
  inums : ∀ j, (s'.fs.icache j).inum = (s.fs.icache j).inum

theorem forkChild_cwd (h : forkChild s p np d = .ok s') :
    (s'.proc np).state = .RUNNABLE ∧ (s'.proc np).cwd = (s.proc p).cwd ∧
      ∀ j, (s'.fs.icache j).inum = (s.fs.icache j).inum := by
  obtain ⟨s1, s2, s3, name, s4, hshm, hfiles, hidup, -, hprio, rfl⟩ := forkChild_eq_ok h
  have hfs1 : s1.fs = s.fs := by
    obtain ⟨shm, km, hs1⟩ := (forkShm_memOnly hshm).rest
    rw [hs1]
    rfl
  have hfs2 : s2.fs = s1.fs := by
    obtain ⟨file, ofile, rfl⟩ := dupFiles_eq_ok hfiles
    rfl
  obtain ⟨fs, mem, hinums, rfl⟩ := idupPtr_inums hidup
  obtain ⟨q, mem', rfl⟩ := forkPrio_queueOnly hprio
  refine ⟨?_, ?_, fun j => (hinums j).trans ?_⟩
  · rw [setProc_self]
  · simp only [setProc_self]
  · rw [hfs2, ← hfs1]

theorem ForkOk.newborn (h : ForkOk s p np d s') (hp : s.live p) : Newborn s p np s' := by
  have hmade := h.made hp
  have hcontainer := congrArg Ident.container hmade.child
  have hid := congrArg Ident.container_id hmade.child
  obtain ⟨hunused, page, free, q, mem, d', m, -, -, -, hchild⟩ := h
  have hne : p ≠ np := fun heq => hp (heq ▸ hunused)
  obtain ⟨hstate, hcwd, hinums⟩ := forkChild_cwd hchild
  have hparent := congrArg Proc.cwd (update_of_ne hne ((s.proc np).forked s.nextpid page d') s.proc)
  exact ⟨hunused, hstate, hcontainer, hid, hcwd.trans hparent, hinums⟩

theorem Charged.newborn {s1 : Kernel} (h : Charged s p s1) (hborn : Newborn s1 p np s') :
    Newborn s p np s' := by
  cases h <;> exact ⟨hborn.unused, hborn.runnable, hborn.container, hborn.container_id, hborn.cwd,
    hborn.inums⟩

/-- A `fork` inside a container. -/
theorem fork_inside (h : fork s p = .ok (r, s')) (hp : s.live p) (hd : (s.proc p).pgdir = some d)
    (hid : (s.proc p).container_id ≠ 0) (hc : (s.proc p).container = some c)
    (hn : (s.containers c).nproc < 2 ^ 32)
    (hat : isCm (s.proc p).name = false → EntriesAt d (s.heldPages p)) : s'.containers =
        update s.containers c { s.containers c with nproc := (s.containers c).nproc - 1 } ∧
      ((∃ np, Newborn s p np s' ∧ (s.containers c).nproc ≠ 0 ∧ s.CanFork p d) ∨
        ((∀ q, (s.proc q).state = .UNUSED → (s'.proc q).state = .UNUSED) ∧
          ¬ ((s.containers c).nproc ≠ 0 ∧ s.CanFork p d))) := by
  obtain ⟨d', hd', ⟨-, rfl, -, c', hc', hzero⟩ | ⟨s1, hs1, hrest⟩⟩ := fork_cases h
  · obtain rfl : c' = c := Option.some.inj (hc'.symm.trans hc)
    refine ⟨?_, .inr ⟨fun _ hq => hq, fun hand => hand.1 hzero⟩⟩
    rw [hzero, Nat.zero_sub, ← hzero]
    exact (update_eq_self ..).symm
  obtain rfl : d' = d := Option.some.inj (hd'.symm.trans hd)
  have hpos : (s.containers c).nproc ≠ 0 ∧ s1.containers =
      update s.containers c { s.containers c with nproc := (s.containers c).nproc - 1 } := by
    cases hs1 with
    | outside h0 => exact absurd h0 hid
    | inside c' _ hc' hne =>
      obtain rfl : c' = c := Option.some.inj (hc'.symm.trans hc)
      rw [← udec_of_pos (Nat.pos_of_ne_zero hne) hn]
      exact ⟨hne, rfl⟩
  obtain ⟨hne, hcontainers⟩ := hpos
  have hlive : s1.live p := by
    rw [Kernel.live, hs1.proc]
    exact hp
  have hat1 : isCm (s1.proc p).name = false → EntriesAt d' (s1.heldPages p) := by
    unfold Kernel.heldPages
    rw [hs1.proc, hs1.shm]
    exact hat
  obtain ⟨-, hfailed⟩ | ⟨np, -, hok⟩ := hrest
  · have hnot := hfailed.not_canFork hlive hat1
    rw [hs1.canFork_iff] at hnot
    obtain rfl | ⟨np, x, q, m, hunused, hx, -, rfl⟩ := hfailed.unused
    · exact ⟨hcontainers, .inr ⟨fun q hq => by rwa [hs1.proc], fun hand => hnot hand.2⟩⟩
    · refine ⟨hcontainers, .inr ⟨fun q' hq' => ?_, fun hand => hnot hand.2⟩⟩
      by_cases hqn : q' = np
      · rw [hqn]
        exact (congrArg Proc.state (update_self ..)).trans hx
      · refine (congrArg Proc.state (update_of_ne hqn ..)).trans ?_
        rwa [hs1.proc]
  · exact ⟨(hok.made hlive).containers.trans hcontainers,
      .inl ⟨np, hs1.newborn (hok.newborn hlive), hne, hs1.canFork_iff.mp (hok.canFork hlive hat1)⟩⟩

/-! ## The whole call -/

/-- The call has changed neither the caller, nor a container, nor a reference count. -/
structure Untouched (s : Kernel) (p : PIdx) (s' : Kernel) : Prop where
  name : cstr (s'.proc p).name = cstr (s.proc p).name
  cwd : (s'.proc p).cwd = (s.proc p).cwd
  container : (s'.proc p).container = (s.proc p).container ∧
    (s'.proc p).container_id = (s.proc p).container_id
  containers : s'.containers = s.containers
  refs : ∀ j, (s'.fs.icache j).ref = (s.fs.icache j).ref

/-- The container `c` was free, and now has the limit `n`, of which its first process `q` has used
one, and the root `ip` that the path stands for. -/
structure Created (s : Kernel) (p : PIdx) (path : Bytes) (n : Int) (c : CIdx) (q : PIdx) (ip : Slot)
    (s' : Kernel) : Prop where
  free : (s.containers c).container_id = UINT_MAX
  claimed : (s'.containers c).container_id ≠ UINT_MAX
  limit : ((s'.containers c).nproc : Int) + 1 = n
  root : (s'.containers c).root = some ip
  resolved : s.resolves p path = some (s'.fs.icache ip).inum
  unused : (s.proc q).state = .UNUSED
  runnable : (s'.proc q).state = .RUNNABLE
  container : (s'.proc q).container = some c ∧
    (s'.proc q).container_id = (s'.containers c).container_id
  cwd : (s'.proc q).cwd = some ip

/-- A container has been created in whole, or not at all. -/
def AllOrNothing (s : Kernel) (p : PIdx) (path : Bytes) (n r : Int) (s' : Kernel) : Prop :=
  (r = -1 ∧ Untouched s p s') ∨ ∃ c q ip, Created s p path n c q ip s'

/-- A container, a root and a first process can be had for the asking, and the limit is one that can
be set. -/
structure CanCreate (s : Kernel) (p : PIdx) (path : Bytes) (n : Int) : Prop where
  free : s.freeContainer ≠ none
  limit : 1 ≤ n ∧ n < NPROC
  named : strlen path ≠ 0 ∧ ¬ s.fromContainer p path
  resolved : s.resolves p path ≠ none
  fork : ∃ d, (s.proc p).pgdir = some d ∧ (∃ q, (s.proc q).state = .UNUSED) ∧
    NKERNTABLES + 2 + d.copyNeed (s.heldPages p) (isCm (s.proc p).renamed.name)
      (pages (s.proc p).sz) ≤ s.km.free.length

theorem newLimit_iff (hlo : -2 ^ 31 ≤ n) (hhi : n < 2 ^ 31) :
    ((newLimit n - 1 : ℕ) : Int) + 1 = n ↔ 1 ≤ n ∧ n < NPROC := by
  unfold newLimit touint
  simp only [NPROC, UINT_MAX]
  split_ifs with hle
  · omega
  · omega

theorem newLimit_ne_zero (h : 1 ≤ n ∧ n < NPROC) : newLimit n ≠ 0 := by
  unfold newLimit touint
  simp only [NPROC, UINT_MAX] at *
  split_ifs <;> omega

theorem cstr_renamed_iff (name : Bytes) :
    cstr (strncpy name [99, 109] 2) = cstr name ↔ strncmp name [99, 109] 2 = 0 := by
  have hnew : cstr (strncpy name [99, 109] 2) = 99 :: 109 :: cstr (name.drop 2) := by
    show cstr (99 :: 109 :: name.drop 2) = _
    rw [cstr_cons, if_neg (by decide), cstr_cons, if_neg (by decide)]
  rw [strncmp_eq_zero_iff, hnew]
  refine ⟨fun heq => by rw [← heq]; rfl, fun htake => ?_⟩
  -- The first two bytes of the name are those that are written.
  have hfirst : deref name ≠ 0 := fun h0 => by
    rw [cstr_of_deref_eq_zero h0] at htake
    cases htake
  rw [cstr_of_deref_ne_zero hfirst] at htake ⊢
  obtain ⟨hc, hrest⟩ := List.cons.inj htake
  have hsecond : deref name.tail ≠ 0 := fun h0 => by
    rw [cstr_of_deref_eq_zero h0] at hrest
    cases hrest
  rw [cstr_of_deref_ne_zero hsecond] at hrest ⊢
  obtain ⟨hm, -⟩ := List.cons.inj hrest
  rw [hc, hm, ← List.drop_one, ← List.drop_one, List.drop_drop]

/-- The new name is as good as the old one if that starts with `cm`. -/
theorem untouched_iff : Untouched s p (s.setProc p (s.proc p).renamed) ↔
    strncmp (s.proc p).name [99, 109] 2 = 0 := by
  rw [← cstr_renamed_iff]
  refine ⟨fun h => ?_, fun h => ⟨?_, ?_, ⟨?_, ?_⟩, rfl, fun _ => rfl⟩⟩
  · have hname := h.name
    rwa [setProc_self] at hname
  · rwa [setProc_self]
  all_goals
    rw [setProc_self]
    rfl

namespace Entering

variable {root : Option Slot} {s0 : Kernel}

theorem state (h : Entering s p path n c root s0) (q : PIdx) :
    (s0.proc q).state = (s.proc q).state := by
  by_cases hq : q = p
  · rw [hq, h.caller]
    rfl
  · rw [h.others q hq]

theorem heldPages (h : Entering s p path n c root s0) : s0.heldPages p = s.heldPages p := by
  unfold Kernel.heldPages
  rw [h.caller, h.shm]
  rfl

theorem canFork_iff (h : Entering s p path n c root s0) :
    s0.CanFork p d ↔ (∃ q, (s.proc q).state = .UNUSED) ∧
      NKERNTABLES + 2 + d.copyNeed (s.heldPages p) (isCm (s.proc p).renamed.name)
      (pages (s.proc p).sz) ≤ s.km.free.length := by
  unfold CanFork forkNeed
  simp only [h.state, h.heldPages, h.free, h.caller]
  rfl

theorem fork (h : Entering s p path n c root s0) (hin : CreateInput f s p)
    (hd : (s.proc p).pgdir = some d) (hfork : fork s0 p = .ok (r, s')) :
    s'.containers = update s0.containers c
        { container_id := s.nextcid, nproc := newLimit n - 1, root := root } ∧
      ((∃ np, Newborn s0 p np s' ∧ newLimit n ≠ 0 ∧ s0.CanFork p d) ∨
        ((∀ q, (s.proc q).state = .UNUSED → (s'.proc q).state = .UNUSED) ∧
          ¬ (newLimit n ≠ 0 ∧ s0.CanFork p d))) := by
  have hc : s0.containers c = { container_id := s.nextcid, nproc := newLimit n, root := root } := by
    rw [h.containers, update_self]
  have hinside := fork_inside (c := c) (d := d) hfork (by rw [Kernel.live, h.state]; exact hin.live)
    (by rw [h.caller]; exact hd) (by rw [h.caller]; exact hin.nextcid.1) (by rw [h.caller]; rfl)
    (by
      rw [hc]
      unfold newLimit touint
      simp only [UINT_MAX]
      split_ifs <;> omega)
    (by
      rw [h.caller, h.heldPages]
      exact hin.shared d hd)
  rw [hc] at hinside
  simpa only [h.state] using hinside

end Entering

theorem cmLeave_state (s : Kernel) (p q : PIdx) :
    ((cmLeave s p).proc q).state = (s.proc q).state := by
  rw [cmLeave, setProc_proc]
  split_ifs with hq
  · rw [hq]
  · rfl

/-- What comes of the call once its `fork` has returned. -/
theorem created_iff {root : Option Slot} {s0 : Kernel} (hin : CreateInput f s p)
    (hd : (s.proc p).pgdir = some d) (hfree : s.freeContainer = some c) (hlo : -2 ^ 31 ≤ n)
    (hhi : n < 2 ^ 31) (he : Entering s p path' n c root s0) (hfork : fork s0 p = .ok (r, s')) :
    (∃ c' q ip, Created s p path n c' q ip (cmLeave s' p)) ↔
      CanCreate s p path' n ∧ s.resolves p path' = s.resolves p path := by
  obtain ⟨hcontainers, hcases⟩ := he.fork hin hd hfork
  have hc : (cmLeave s' p).containers c =
      { container_id := s.nextcid, nproc := newLimit n - 1, root := root } :=
    (congrFun hcontainers c).trans (update_self ..)
  constructor
  · rintro ⟨c', q, ip, h⟩
    obtain rfl : c' = c := by
      by_contra hne
      refine h.claimed (Eq.trans ?_ h.free)
      refine congrArg Container.container_id ((congrFun hcontainers c').trans ?_)
      rw [update_of_ne hne, he.containers, update_of_ne hne]
    have hroot := h.root
    have hlimit := h.limit
    rw [hc] at hroot hlimit
    have hinum := he.inum
    rw [show root = some ip from hroot, rootInum] at hinum
    have hnamed : ¬ (strlen path' = 0 ∨ s.fromContainer p path') := fun hnone => by
      rw [if_pos hnone] at hinum
      cases hinum
    rw [if_neg hnamed] at hinum
    have hrunnable : (s'.proc q).state = .RUNNABLE := (cmLeave_state s' p q).symm.trans h.runnable
    obtain ⟨np, hborn, -, hcan⟩ | ⟨hsame, -⟩ := hcases
    · refine ⟨⟨by rw [hfree]; nofun, (newLimit_iff hlo hhi).mp hlimit,
        not_or.mp hnamed, by rw [← hinum]; nofun, d, hd, he.canFork_iff.mp hcan⟩, ?_⟩
      rw [← hinum, h.resolved, Option.map_some, ← hborn.inums ip]
      rfl
    · cases (hsame q h.unused).symm.trans hrunnable
  · rintro ⟨h, hresolved⟩
    obtain ⟨d', hd', hfork'⟩ := h.fork
    obtain rfl : d' = d := Option.some.inj (hd'.symm.trans hd)
    obtain ⟨np, hborn, -, -⟩ | ⟨-, hnot⟩ := hcases
    · have hne : np ≠ p := fun heq => hin.live ((he.state p).symm.trans (heq ▸ hborn.unused))
      have hproc : (cmLeave s' p).proc np = s'.proc np := setProc_of_ne _ _ _ hne
      have hinum := he.inum
      rw [rootInum, if_neg (not_or.mpr h.named)] at hinum
      rcases root with _ | ip
      · exact absurd hinum.symm h.resolved
      · refine ⟨c, np, ip, freeContainer_eq_some hfree, ?_, ?_, ?_, ?_, ?_, ?_, ⟨?_, ?_⟩, ?_⟩
        · rw [hc]
          exact hin.nextcid.2
        · rw [hc]
          exact (newLimit_iff hlo hhi).mpr h.limit
        · rw [hc]
        · rw [← hresolved, ← hinum, Option.map_some, ← hborn.inums ip]
          rfl
        · rw [← he.state]
          exact hborn.unused
        · rw [cmLeave_state]
          exact hborn.runnable
        · rw [hproc, hborn.container, he.caller]
          rfl
        · rw [hproc, hborn.container_id, he.caller, hc]
          rfl
        · rw [hproc, hborn.cwd, he.caller]
          rfl
    · exact absurd ⟨newLimit_ne_zero h.limit, he.canFork_iff.mpr hfork'⟩ hnot

/-- A kernel with one process, at the root of a disk with one file, and no container. The paths `/`
and `/b` are at the addresses 1 and 3. -/
def Kernel.creator : Kernel :=
  { Kernel.forker false with
    fs := .oneFile
    containers := fun _ => { container_id := UINT_MAX, nproc := UINT_MAX, root := none }
    nextcid := 1
    km := { (Kernel.forker false).km with mem := fun _ a => [0, 47, 0, 47, 98].getD a 0 } }

theorem creator_input : CreateInput (Pi.single 0 1) .creator 0 where
  live := nofun
  tree := oneFile_tree
  cwd := ⟨0, rfl, by decide, by decide⟩
  blank _ _ := ⟨rfl, rfl⟩
  nextcid := by decide
  shared _ _ hcm := absurd hcm (by decide)

end Dockv6
