import Dockv6.Foundations.Walk
import Dockv6.Fs.Dir

/-!
# Path lookup

`skipelem` and `namex`. A path is cut into names by `pathElems`. `namex_walk` says which inode a
lookup returns: the one at the end of the walk along the names; `namex_refs` says that the caller
gets one reference to it and no other count changes.
-/

namespace Dockv6

/-- The byte `'/'`. -/
def slash : UInt8 := 47

theorem deref_dropWhile_slash (p : Bytes) : deref (p.dropWhile (· == slash)) ≠ slash := by
  induction p with
  | nil => decide
  | cons a p ih =>
    rw [List.dropWhile_cons]
    split_ifs with ha
    · exact ih
    · simpa [deref] using ha

theorem dropWhile_slash_of_deref {p : Bytes} (h : deref p ≠ slash) :
    p.dropWhile (· == slash) = p := by
  rcases p with _ | ⟨a, p⟩
  · rfl
  · rw [List.dropWhile_cons, if_neg (by simpa [deref] using h)]

/-- The bytes of the first element of a path that does not start with a slash. -/
def elemBytes (path : Bytes) : Bytes := path.takeWhile (fun c => c != slash && c != 0)

/-- Copy the next path element into `name`: the path after it, without leading slashes, and the
name. Nothing when there is no name to remove. -/
def skipelem (path : Bytes) : Option (Bytes × Name) :=
  let path := path.dropWhile (· == slash)
  if deref path = 0 then none
  else
    some ((path.dropWhile (fun c => c != slash && c != 0)).dropWhile (· == slash),
      { bytes := (elemBytes path).take DIRSIZ
        length_le := List.length_take_le _ _
        ne_zero := fun h => by
          have := List.mem_takeWhile_imp (List.mem_of_mem_take h)
          simp at this })

/-- The fields of the calling process that `namex` reads. -/
structure PathCtx where
  container_id : ℕ
  /-- `p->container->root`, if it is set. -/
  root : Option Slot
  cwd : Slot

/-- In a container the path `..`, and no other, is overwritten with `.`. -/
def containerPath (ctx : PathCtx) (path : Bytes) : Bytes :=
  if 0 < ctx.container_id ∧ strncmp path [46, 46] 3 = 0 then strncpy path [46] 2 else path

/-- The inode at which `namex` starts. -/
def startInode (ctx : PathCtx) (fs : Fs) (path : Bytes) : Res (Slot × Fs) :=
  if deref path = slash then
    if 0 < ctx.container_id then
      match ctx.root with
      | some r => .ok (r, idup fs r)
      | none => .error .undefined
    else iget fs ROOTINO
  else .ok (ctx.cwd, idup fs ctx.cwd)

/-- How a round of the loop of `namex` ends: `namex` returns, or the loop goes on at an inode. -/
inductive Round
  | ret (r : Option (Slot × Name))
  | go (next : Slot)

/-- The body of the loop of `namex` at the inode `ip` with the element `name`; `last` says that
nothing follows it in the path. -/
def namexRound (nameiparent last : Bool) (fs : Fs) (ip : Slot) (name : Name) : Res (Round × Fs) :=
  if (fs.icache ip).ref < 1 then .ok (.ret none, fs)
  else do
    let fs ← ilock fs ip
    if !(fs.node ip).isDir then
      let fs ← iunlockput fs ip
      return (.ret none, fs)
    else if nameiparent && last then
      -- Stop one level early.
      let fs ← iunlock fs ip
      return (.ret (some (ip, name)), fs)
    else
      let (next, fs) ← dirlookup fs ip name
      match next with
      | none =>
        let fs ← iunlockput fs ip
        return (.ret none, fs)
      | some (next, _) =>
        if (fs.icache next).ref < 1 then
          let fs ← iunlockput fs ip
          return (.ret none, fs)
        else
          let fs ← iunlockput fs ip
          return (.go next, fs)

/-- What follows the loop of `namex`. The name is what the buffer `name` holds. -/
def namexEnd (nameiparent : Bool) (fs : Fs) (ip : Slot) (name : Name) :
    Option (Slot × Name) × Fs :=
  if nameiparent then (none, iput fs ip) else (some (ip, name), fs)

/-- The loop of `namex`, and what follows it. Every round removes a name from the path, so as many
rounds as the path has bytes are enough: when they are used up, nothing is left to remove. -/
def namexLoop (nameiparent : Bool) :
    ℕ → Fs → Slot → Bytes → Name → Res (Option (Slot × Name) × Fs)
  | 0, fs, ip, _, name => .ok (namexEnd nameiparent fs ip name)
  | n + 1, fs, ip, path, name =>
    match skipelem path with
    | none => .ok (namexEnd nameiparent fs ip name)
    | some (path, name) => do
      let (r, fs) ← namexRound nameiparent (deref path == 0) fs ip name
      match r with
      | .ret r => return (r, fs)
      | .go next => namexLoop nameiparent n fs next path name

/-- Look up and return the inode for a path name, or the inode of its parent together with the
final path element. -/
def namex (ctx : PathCtx) (fs : Fs) (path : Bytes) (nameiparent : Bool) :
    Res (Option (Slot × Name) × Fs) := do
  let path := containerPath ctx path
  let (ip, fs) ← startInode ctx fs path
  namexLoop nameiparent path.length fs ip path .dot

/-! ## The names of a path -/

theorem cstr_dot (path : Bytes) : cstr (strncpy path [46] 2) = [46] := by
  show cstr (46 :: 0 :: path.drop 2) = _
  rw [cstr_cons, if_neg (by decide), cstr_cons, if_pos rfl]

theorem containerPath_idem (ctx : PathCtx) (path : Bytes) :
    containerPath ctx (containerPath ctx path) = containerPath ctx path := by
  unfold containerPath
  split_ifs with h h'
  · have hdots := (strncmp_eq_zero_iff _ _ _).mp h'.2
    rw [cstr_dot] at hdots
    cases hdots
  · rfl
  · rfl

/-- The names that `skipelem` cuts off a path, one after another, in at most `n` rounds. -/
def pathElems : ℕ → Bytes → List Name
  | 0, _ => []
  | n + 1, path =>
    match skipelem path with
    | none => []
    | some (path, name) => name :: pathElems n path

/-- The names that `namex` cuts the path into. -/
def namesOf (ctx : PathCtx) (path : Bytes) : List Name :=
  pathElems (containerPath ctx path).length (containerPath ctx path)

/-- The number of the inode at which `namex` starts. -/
def startInum (ctx : PathCtx) (fs : Fs) (path : Bytes) : ℕ :=
  if deref (containerPath ctx path) = slash then
    if 0 < ctx.container_id then
      match ctx.root with
      | some r => (fs.icache r).inum
      | none => 0
    else ROOTINO
  else (fs.icache ctx.cwd).inum

/-- The names a lookup follows: all of them, or all but the last. -/
def followed (nameiparent : Bool) (names : List Name) : List Name :=
  if nameiparent then names.dropLast else names

section Skip

variable {path rest : Bytes} {name : Name}

theorem skipelem_eq_none : skipelem path = none ↔ deref (path.dropWhile (· == slash)) = 0 := by
  simp [skipelem]

theorem length_skipelem (h : skipelem path = some (rest, name)) : rest.length < path.length := by
  unfold skipelem at h
  simp only at h
  split_ifs at h with h0
  obtain ⟨rfl, -⟩ := Prod.mk.inj (Option.some.inj h)
  have hne := deref_dropWhile_slash path
  have hle := (List.dropWhile_suffix (· == slash) (l := path)).length_le
  rcases hp : path.dropWhile (· == slash) with _ | ⟨a, p⟩
  · rw [hp] at h0
    exact absurd rfl h0
  · rw [hp] at h0 hne hle
    have ha : (a != slash && a != 0) = true := by simpa [deref] using And.intro hne h0
    rw [List.dropWhile_cons, if_pos ha]
    calc ((p.dropWhile fun c => c != slash && c != 0).dropWhile (· == slash)).length
        ≤ (p.dropWhile fun c => c != slash && c != 0).length :=
          (List.dropWhile_suffix _).length_le
      _ ≤ p.length := (List.dropWhile_suffix _).length_le
      _ < path.length := hle

/-- What `skipelem` leaves has no leading slash: it is at its end exactly when no name is left. -/
theorem skipelem_rest (h : skipelem path = some (rest, name)) :
    deref rest = 0 ↔ skipelem rest = none := by
  unfold skipelem at h
  simp only at h
  split_ifs at h with h0
  obtain ⟨rfl, -⟩ := Prod.mk.inj (Option.some.inj h)
  rw [skipelem_eq_none, dropWhile_slash_of_deref (deref_dropWhile_slash _)]

theorem pathElems_rest {n : ℕ} (h : skipelem path = some (rest, name)) (hn : rest.length ≤ n) :
    pathElems n rest = [] ↔ deref rest = 0 := by
  rw [skipelem_rest h]
  rcases n with _ | n
  · obtain rfl : rest = [] := List.length_eq_zero_iff.mp (by omega)
    simp [pathElems, skipelem, deref]
  · rw [pathElems]
    cases skipelem rest <;> simp

end Skip

theorem followed_cons {par : Bool} {name : Name} {names : List Name}
    (h : ¬ (par = true ∧ names = [])) :
    followed par (name :: names) = name :: followed par names := by
  unfold followed
  split_ifs with hp
  · exact List.dropLast_cons_of_ne_nil fun hn => h ⟨hp, hn⟩
  · rfl

/-! ## Which inode a lookup returns -/

theorem Shrinks.entry {fs fs' : Fs} (h : Shrinks fs fs') {d c : ℕ} {name : Name}
    (hc : fs'.entry d name = some c) : fs.entry d name = some c := by
  rcases h d with hd | hd
  · rwa [Fs.entry, hd] at hc
  · rw [Fs.entry, hd] at hc
    cases hc

section Round

variable {par last : Bool} {fs fs' : Fs} {ip : Slot} {name : Name} {out : Round}

/-- How a round of the loop can end: it finds `ip` unreferenced; it gives up and drops `ip`; it
stops at `ip`, the parent; or it goes on at the inode that `name` stands for in `ip`. -/
theorem namexRound_cases (h : namexRound par last fs ip name = .ok (out, fs')) :
    ((fs.icache ip).ref < 1 ∧ out = .ret none ∧ fs' = fs) ∨
    (∃ fs1, ilock fs ip = .ok fs1 ∧ out = .ret none ∧ fs' = iput fs1 ip) ∨
    ((par && last) = true ∧ ilock fs ip = .ok fs' ∧ out = .ret (some (ip, name))) ∨
    ((par && last) = false ∧ ∃ fs1 fs2 next off, ilock fs ip = .ok fs1 ∧
      dirlookup fs1 ip name = .ok (some (next, off), fs2) ∧ out = .go next ∧
      fs' = iput fs2 ip) := by
  unfold namexRound at h
  by_cases href : (fs.icache ip).ref < 1
  · rw [if_pos href] at h
    obtain ⟨rfl, rfl⟩ := Prod.mk.inj (Except.ok.inj h)
    exact .inl ⟨href, rfl, rfl⟩
  rw [if_neg href] at h
  obtain ⟨fs1, hlock, h⟩ := bind_eq_ok.mp h
  split_ifs at h with hdir hstop
  · obtain ⟨fs2, hput, hret⟩ := bind_eq_ok.mp h
    obtain ⟨rfl, rfl⟩ := Prod.mk.inj (Except.ok.inj hret)
    exact .inr (.inl ⟨fs1, hlock, rfl, iunlockput_spec hput⟩)
  · obtain ⟨fs2, hunlock, hret⟩ := bind_eq_ok.mp h
    obtain ⟨rfl, rfl⟩ := Prod.mk.inj (Except.ok.inj hret)
    obtain ⟨rfl, -⟩ := iunlock_spec hunlock
    exact .inr (.inr (.inl ⟨hstop, hlock, rfl⟩))
  · obtain ⟨⟨r, fs2⟩, hlook, h⟩ := bind_eq_ok.mp h
    obtain ⟨-, -, -, hr⟩ := dirlookup_spec hlook
    rcases r with _ | ⟨next, off⟩
    · obtain ⟨fs3, hput, hret⟩ := bind_eq_ok.mp h
      obtain ⟨rfl, rfl⟩ := Prod.mk.inj (Except.ok.inj hret)
      obtain ⟨rfl, -⟩ := hr
      exact .inr (.inl ⟨_, hlock, rfl, iunlockput_spec hput⟩)
    · simp only at h
      rw [if_neg (by have := hr.1; omega)] at h
      obtain ⟨fs3, hput, hret⟩ := bind_eq_ok.mp h
      obtain ⟨rfl, rfl⟩ := Prod.mk.inj (Except.ok.inj hret)
      exact .inr (.inr (.inr ⟨by simpa using hstop, fs1, fs2, next, off, hlock, hlook, rfl,
        iunlockput_spec hput⟩))

/-- What a round does to the disk, and the inode that it leads to. -/
theorem namexRound_walk (h : namexRound par last fs ip name = .ok (out, fs')) :
    Frees fs fs' ∧
      match out with
      | .ret none => True
      | .ret (some (i, nm)) => (par && last) = true ∧ nm = name ∧
          (fs'.icache i).inum = (fs.icache ip).inum
      | .go next => (par && last) = false ∧
          fs.entry (fs.icache ip).inum name = some (fs'.icache next).inum := by
  obtain ⟨-, rfl, rfl⟩ | ⟨fs1, hlock, rfl, rfl⟩ | ⟨hstop, hlock, rfl⟩ |
    ⟨hstop, fs1, fs2, next, off, hlock, hlook, rfl, rfl⟩ := namexRound_cases h
  · exact ⟨.refl _, trivial⟩
  · exact ⟨(ilock_frees hlock).trans (iput_spec fs1 ip).2.2, trivial⟩
  · exact ⟨ilock_frees hlock, hstop, rfl, ((ilock_spec hlock).1 ip).2⟩
  · have hfrees := ilock_frees hlock
    obtain ⟨-, -, -, hr⟩ := dirlookup_spec hlook
    refine ⟨(hfrees.trans (dirlookup_frees hlook)).trans (iput_spec fs2 ip).2.2, hstop, ?_⟩
    rw [(iput_spec fs2 ip).2.1, ← ((ilock_spec hlock).1 ip).2]
    exact hfrees.shrinks.entry hr.2

/-- The references that are held after a round in place of the one to `ip`. -/
def Round.held : Round → Slot → ℕ
  | .ret none => 0
  | .ret (some (i, _)) => Pi.single i 1
  | .go next => Pi.single next 1

theorem namexRound_refs {f : Slot → ℕ} (h : namexRound par last fs ip name = .ok (out, fs'))
    (hf : Refs fs (f + Pi.single ip 1)) : Refs fs' (f + out.held) ∧ Keeps f fs fs' := by
  obtain ⟨href, rfl, rfl⟩ | ⟨fs1, hlock, rfl, rfl⟩ | ⟨hstop, hlock, rfl⟩ |
    ⟨hstop, fs1, fs2, next, off, hlock, hlook, rfl, rfl⟩ := namexRound_cases h
  · rw [hf] at href
    simp at href
    omega
  · refine ⟨iput_refs (ilock_refs hlock hf), fun j _ => ?_⟩
    rw [(iput_spec fs1 ip).2.1, ((ilock_spec hlock).1 j).2]
  · exact ⟨ilock_refs hlock hf, fun j _ => ((ilock_spec hlock).1 j).2⟩
  · have hf1 := ilock_refs hlock hf
    obtain ⟨-, hc, -, -⟩ := dirlookup_spec hlook
    have hf2 : Refs fs2 (f + Pi.single next 1 + Pi.single ip 1) :=
      hc.refs hf1 fun j => by
        by_cases hj : j = next <;> simp [got, Pi.single_apply, hj]
        omega
    refine ⟨iput_refs hf2, fun j hj => ?_⟩
    rw [(iput_spec fs2 ip).2.1, ← ((ilock_spec hlock).1 j).2]
    exact hc.keeps hf1 (fun k hk => by simp; omega) j hj

end Round

/-- The references that a lookup gives its caller. -/
def heldBy (r : Option (Slot × Name)) : Slot → ℕ := Round.held (.ret r)

section Loop

variable {par : Bool} {n : ℕ} {fs fs' : Fs} {ip i : Slot} {path : Bytes} {name nm : Name}

theorem namexEnd_walk {fs0 : Fs} {names : List Name} (hnames : names = [])
    (h : (.ok (namexEnd par fs ip name) : Res _) = .ok (some (i, nm), fs')) :
    walk fs0.entry (fs.icache ip).inum (followed par names) = some (fs'.icache i).inum := by
  subst hnames
  unfold namexEnd at h
  split_ifs at h with hp
  · cases h
  · cases h
    rw [followed, if_neg hp]
    rfl

theorem namexEnd_frees {r : Option (Slot × Name)}
    (h : (.ok (namexEnd par fs ip name) : Res _) = .ok (r, fs')) : Frees fs fs' := by
  unfold namexEnd at h
  split_ifs at h
  · cases h
    exact (iput_spec fs ip).2.2
  · cases h
    exact .refl fs

theorem namexLoop_walk (hn : path.length ≤ n) {fs0 : Fs} (hfs : Shrinks fs0 fs)
    (h : namexLoop par n fs ip path name = .ok (some (i, nm), fs')) :
    walk fs0.entry (fs.icache ip).inum (followed par (pathElems n path)) =
      some (fs'.icache i).inum := by
  induction n generalizing fs ip path name with
  | zero => exact namexEnd_walk (by rw [pathElems]) h
  | succ n ih =>
    rw [namexLoop] at h
    split at h
    · rename_i hskip
      exact namexEnd_walk (by rw [pathElems, hskip]) h
    · rename_i rest nm' hskip
      have hlen : rest.length ≤ n := by
        have := length_skipelem hskip
        omega
      obtain ⟨⟨out, fs1⟩, hround, h⟩ := bind_eq_ok.mp h
      obtain ⟨hfrees, hout⟩ := namexRound_walk hround
      have hlast : (deref rest == 0) = true ↔ pathElems n rest = [] := by
        rw [pathElems_rest hskip hlen, beq_iff_eq]
      have hcons : pathElems (n + 1) path = nm' :: pathElems n rest := by rw [pathElems, hskip]
      rw [hcons]
      rcases out with (_ | ⟨i', nm''⟩) | next
      · cases h
      · obtain ⟨hstop, -, hinum⟩ := hout
        cases h
        simp only [Bool.and_eq_true] at hstop
        rw [hlast.mp hstop.2, followed, if_pos hstop.1, hinum]
        rfl
      · obtain ⟨hgo, hentry⟩ := hout
        have hmore : ¬ (par = true ∧ pathElems n rest = []) := by
          rintro ⟨hp, hnil⟩
          rw [hp, hlast.mpr hnil] at hgo
          cases hgo
        rw [followed_cons hmore, walk_cons (hfs.entry hentry)]
        exact ih hlen (hfs.trans hfrees.shrinks) h

theorem namexLoop_frees {r : Option (Slot × Name)}
    (h : namexLoop par n fs ip path name = .ok (r, fs')) : Frees fs fs' := by
  induction n generalizing fs ip path name with
  | zero => exact namexEnd_frees h
  | succ n ih =>
    rw [namexLoop] at h
    split at h
    · exact namexEnd_frees h
    · obtain ⟨⟨out, fs1⟩, hround, h⟩ := bind_eq_ok.mp h
      have hfrees := (namexRound_walk hround).1
      cases out with
      | ret r' =>
        obtain ⟨rfl, rfl⟩ := Prod.mk.inj (Except.ok.inj h)
        exact hfrees
      | go next => exact hfrees.trans (ih h)

theorem namexEnd_refs {r : Option (Slot × Name)} {f : Slot → ℕ}
    (h : (.ok (namexEnd par fs ip name) : Res _) = .ok (r, fs'))
    (hf : Refs fs (f + Pi.single ip 1)) : Refs fs' (f + heldBy r) ∧ Keeps f fs fs' := by
  unfold namexEnd at h
  split_ifs at h
  · cases h
    exact ⟨iput_refs hf, fun j _ => (iput_spec fs ip).2.1 j⟩
  · cases h
    exact ⟨hf, fun j _ => rfl⟩

theorem namexLoop_refs {r : Option (Slot × Name)} {f : Slot → ℕ}
    (h : namexLoop par n fs ip path name = .ok (r, fs')) (hf : Refs fs (f + Pi.single ip 1)) :
    Refs fs' (f + heldBy r) ∧ Keeps f fs fs' := by
  induction n generalizing fs ip path name with
  | zero => exact namexEnd_refs h hf
  | succ n ih =>
    rw [namexLoop] at h
    split at h
    · exact namexEnd_refs h hf
    · obtain ⟨⟨out, fs1⟩, hround, h⟩ := bind_eq_ok.mp h
      obtain ⟨hf1, hk⟩ := namexRound_refs hround hf
      cases out with
      | ret r' =>
        obtain ⟨rfl, rfl⟩ := Prod.mk.inj (Except.ok.inj h)
        exact ⟨hf1, hk⟩
      | go next =>
        obtain ⟨hf2, hk2⟩ := ih h hf1
        exact ⟨hf2, hk.trans hk2⟩

end Loop

section Namex

variable {ctx : PathCtx} {fs fs' : Fs} {path : Bytes} {par : Bool} {ip : Slot} {name : Name}

theorem startInode_frees (h : startInode ctx fs path = .ok (ip, fs')) : Frees fs fs' := by
  unfold startInode at h
  split_ifs at h
  · split at h
    · cases h
      exact .of_disk_eq rfl rfl
    · cases h
  · exact iget_frees h
  · cases h
    exact .of_disk_eq rfl rfl

theorem startInode_spec (h : startInode ctx fs (containerPath ctx path) = .ok (ip, fs')) :
    (fs'.icache ip).inum = startInum ctx fs path ∧ fs'.disk = fs.disk ∧
      ∀ f, Refs fs f → Refs fs' (f + Pi.single ip 1) ∧ Keeps f fs fs' := by
  have hdup : ∀ i, ((idup fs i).icache i).inum = (fs.icache i).inum ∧ (idup fs i).disk = fs.disk ∧
      ∀ f, Refs fs f → Refs (idup fs i) (f + Pi.single i 1) ∧ Keeps f fs (idup fs i) := by
    intro i
    obtain ⟨-, hinum, hdisk⟩ := idup_spec fs i
    exact ⟨hinum i, hdisk, fun f hf => ⟨idup_refs i hf, fun j _ => hinum j⟩⟩
  unfold startInode at h
  unfold startInum
  split_ifs at h ⊢ with hslash hcid
  · split at h
    · cases h
      exact hdup ip
    · cases h
  · obtain ⟨-, hinum, -, hdisk⟩ := iget_spec h
    exact ⟨hinum, hdisk, fun f hf => iget_refs h hf⟩
  · cases h
    exact hdup ctx.cwd

/-- **The inode a lookup returns** is the one at the end of the walk along the names followed, over
the directory entries that the disk held at the call. -/
theorem namex_walk (h : namex ctx fs path par = .ok (some (ip, name), fs')) :
    walk fs.entry (startInum ctx fs path) (followed par (namesOf ctx path)) =
      some (fs'.icache ip).inum := by
  obtain ⟨⟨i, fs1⟩, hstart, hloop⟩ := bind_eq_ok.mp h
  obtain ⟨hinum, hdisk, -⟩ := startInode_spec hstart
  rw [← hinum]
  exact namexLoop_walk le_rfl (.of_disk_eq hdisk) hloop

theorem namex_frees {r : Option (Slot × Name)} (h : namex ctx fs path par = .ok (r, fs')) :
    Frees fs fs' := by
  obtain ⟨⟨i, fs1⟩, hstart, hloop⟩ := bind_eq_ok.mp h
  exact (startInode_frees hstart).trans (namexLoop_frees hloop)

/-- The caller gets one reference, to the inode returned, and no reference is lost. -/
theorem namex_refs {r : Option (Slot × Name)} {f : Slot → ℕ}
    (h : namex ctx fs path par = .ok (r, fs')) (hf : Refs fs f) :
    Refs fs' (f + heldBy r) ∧ Keeps f fs fs' := by
  obtain ⟨⟨i, fs1⟩, hstart, hloop⟩ := bind_eq_ok.mp h
  obtain ⟨hf1, hk⟩ := (startInode_spec hstart).2.2 f hf
  obtain ⟨hf2, hk2⟩ := namexLoop_refs hloop hf1
  exact ⟨hf2, hk.trans hk2⟩

end Namex

end Dockv6
