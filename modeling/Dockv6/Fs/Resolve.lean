import Dockv6.Foundations.Ensures
import Dockv6.Fs.Cache

/-!
# Path resolution

What a path stands for, in terms of its components and of the directories on the disk: `Fs.resolve`
follows the components one after another, and `Fs.resolveParent` stops before the last.
`namex_resolves` says that `namex`, called outside a container, returns just that.
-/

namespace Dockv6

/-! ## The components of a path -/

/-- The components of a path: the maximal runs of characters other than a slash. -/
def components (path : Bytes) : List Bytes := ((cstr path).splitOn slash).filter (· ≠ [])

section Components

variable {path rest : Bytes} {name : Name}

theorem components_slash (path : Bytes) : components (slash :: path) = components path := by
  unfold components
  rw [cstr_cons, if_neg (by decide), List.splitOn, List.splitOnP_cons_eq_if_modifyHead,
    if_pos (by decide), List.filter_cons_of_neg (by decide), List.splitOn]

theorem components_dropWhile (path : Bytes) :
    components (path.dropWhile (· == slash)) = components path := by
  induction path with
  | nil => rfl
  | cons a path ih =>
    rw [List.dropWhile_cons]
    split_ifs with ha
    · rw [ih, beq_iff_eq.mp ha, components_slash]
    · rfl

theorem components_of_deref_eq_zero (h : deref path = 0) : components path = [] := by
  unfold components
  rw [cstr_of_deref_eq_zero h]
  rfl

/-- The string is its first element and what follows. -/
theorem cstr_eq_elemBytes (path : Bytes) :
    cstr path = elemBytes path ++ cstr (path.dropWhile fun c => c != slash && c != 0) := by
  induction path with
  | nil => rfl
  | cons a path ih =>
    unfold elemBytes at ih ⊢
    rw [List.takeWhile_cons, List.dropWhile_cons]
    split_ifs with ha
    · rw [cstr_cons, if_neg (by simpa using (Bool.and_eq_true_iff.mp ha).2), ih]
      rfl
    · rfl

theorem elemBytes_ne_slash {c : UInt8} (h : c ∈ elemBytes path) : c ≠ slash := by
  have := List.mem_takeWhile_imp h
  simp only [Bool.and_eq_true, bne_iff_ne] at this
  exact this.1

theorem components_elem (h0 : deref path ≠ 0) (hslash : deref path ≠ slash) :
    components path = elemBytes path ::
    components (path.dropWhile fun c => c != slash && c != 0) := by
  have hne : elemBytes path ≠ [] := by
    rcases path with _ | ⟨a, path⟩
    · exact absurd rfl h0
    · have ha : (a != slash && a != 0) = true := by simpa [deref] using And.intro hslash h0
      simp [elemBytes, ha]
  have hnone : ∀ c ∈ elemBytes path, (c == slash) = false := fun c hc => by
    simpa using elemBytes_ne_slash hc
  have hrest := List.head?_dropWhile_not (fun c => c != slash && c != 0) path
  conv_lhs => rw [components, cstr_eq_elemBytes, List.splitOn]
  rcases hr : path.dropWhile fun c => c != slash && c != 0 with _ | ⟨a, rest⟩
  · rw [cstr_nil, List.append_nil, List.splitOnP_eq_singleton hnone,
      List.filter_cons_of_pos (by simpa using hne)]
    rfl
  · rw [hr] at hrest
    by_cases ha : a = 0
    · rw [cstr_cons, if_pos ha, List.append_nil, List.splitOnP_eq_singleton hnone,
        List.filter_cons_of_pos (by simpa using hne),
        components_of_deref_eq_zero (show deref (a :: rest) = 0 from ha)]
      rfl
    · obtain rfl : a = slash := by
        by_contra hs
        simp [ha, hs] at hrest
      rw [cstr_cons, if_neg ha, List.splitOnP_append_cons_of_forall_mem hnone _ (by decide),
        List.filter_cons_of_pos (by simpa using hne), components_slash]
      rfl

theorem components_of_skipelem_eq_none (h : skipelem path = none) : components path = [] := by
  rw [← components_dropWhile]
  exact components_of_deref_eq_zero (skipelem_eq_none.mp h)

theorem components_of_skipelem (h : skipelem path = some (rest, name)) :
    ∃ c, components path = c :: components rest ∧ name.bytes = c.take DIRSIZ := by
  unfold skipelem at h
  simp only at h
  split_ifs at h with h0
  obtain ⟨rfl, rfl⟩ := Prod.mk.inj (Option.some.inj h)
  refine ⟨elemBytes (path.dropWhile (· == slash)), ?_, rfl⟩
  rw [← components_dropWhile path, components_elem h0 (deref_dropWhile_slash path),
    components_dropWhile]

theorem components_rest (h : skipelem path = some (rest, name)) : components rest = [] ↔
    deref rest = 0 := by
  rw [skipelem_rest h]
  refine ⟨fun hnil => ?_, components_of_skipelem_eq_none⟩
  by_contra hsome
  obtain ⟨⟨rest', name'⟩, hskip⟩ := Option.ne_none_iff_exists'.mp hsome
  obtain ⟨c, hc, -⟩ := components_of_skipelem hskip
  rw [hnil] at hc
  cases hc

end Components

/-! ## What a path stands for -/

namespace Fs

/-- The inode number of the entry with the name `c` in the directory `d`. Names count up to `DIRSIZ`
bytes. -/
def lookup (fs : Fs) (d : ℕ) (c : Bytes) : Option ℕ :=
  match (fs.disk d).node with
  | .dir ents =>
    (ents.find? fun de => de.inum ≠ 0 ∧ (cstr de.name).take DIRSIZ = c.take DIRSIZ).map Dirent.inum
  | _ => none

/-- The inode at the end of the components, from the inode `start`. -/
def resolve (fs : Fs) (start : ℕ) (comps : List Bytes) : Option ℕ := walk fs.lookup start comps

/-- The directory at the end of all components but the last, and the last. -/
def resolveParent (fs : Fs) (start : ℕ) (comps : List Bytes) : Option (ℕ × Bytes) := do
  let last ← comps.getLast?
  let d ← fs.resolve start comps.dropLast
  if (fs.disk d).node.isDir then some (d, last.take DIRSIZ) else none

end Fs

/-- Where a path outside a container starts. -/
def pathStart (fs : Fs) (cwd : Slot) (path : Bytes) : ℕ :=
  if deref path = slash then ROOTINO else (fs.icache cwd).inum

section Resolve

variable {fs : Fs} {d e : ℕ} {c c' : Bytes} {comps : List Bytes}

theorem scanDir_eq_find? {name : Name} (hname : name.bytes = c.take DIRSIZ)
    (ents : List Dirent) (off : ℕ) : (scanDir name ents off).map Prod.snd =
      (ents.find? fun de => de.inum ≠ 0 ∧ (cstr de.name).take DIRSIZ = c.take DIRSIZ).map
      Dirent.inum := by
  have hcstr : cstr name.bytes = name.bytes := List.takeWhile_eq_self_iff.mpr fun x hx => by
    rw [decide_eq_true_eq]
    rintro rfl
    exact name.ne_zero hx
  have hnamed : ∀ de : Dirent, de.named name = true ↔ (cstr de.name).take DIRSIZ = c.take DIRSIZ :=
      fun de => by
    rw [Dirent.named, beq_iff_eq, namecmp, strncmp_eq_zero_iff, hcstr,
      List.take_of_length_le name.length_le, hname, eq_comm]
  induction ents generalizing off with
  | nil => rfl
  | cons de ents ih =>
    rw [scanDir, List.find?_cons]
    by_cases hde : de.inum ≠ 0 ∧ (cstr de.name).take DIRSIZ = c.take DIRSIZ
    · rw [if_pos ⟨hde.1, (hnamed de).mpr hde.2⟩, decide_eq_true hde]
      rfl
    · rw [if_neg fun h => hde ⟨h.1, (hnamed de).mp h.2⟩, decide_eq_false hde]
      exact ih (off + 1)

theorem Fs.entry_eq_lookup {name : Name} (hname : name.bytes = c.take DIRSIZ) :
    fs.entry d name = fs.lookup d c := by
  unfold Fs.entry Fs.lookup
  rw [scanDir_eq_find? hname]
  cases (fs.disk d).node <;> rfl

theorem Fs.lookup_mem (h : fs.lookup d c = some e) : ∃ de ∈ (fs.disk d).node.ents,
    de.inum = e ∧ e ≠ 0 := by
  unfold Fs.lookup at h
  split at h
  · rename_i ents hents
    obtain ⟨de, hde, rfl⟩ := Option.map_eq_some_iff.mp h
    have hfound := List.find?_some hde
    simp only [decide_eq_true_eq] at hfound
    exact ⟨de, by rw [hents]; exact List.mem_of_find?_eq_some hde, rfl, hfound.1⟩
  · cases h

theorem Fs.lookup_of_not_isDir (h : (fs.disk d).node.isDir = false) (c : Bytes) :
    fs.lookup d c = none := by
  unfold Fs.lookup
  cases hn : (fs.disk d).node <;> simp_all [Node.isDir]

theorem Fs.resolve_cons (fs : Fs) (d : ℕ) (c : Bytes) (comps : List Bytes) :
    fs.resolve d (c :: comps) = (fs.lookup d c).bind fun e => fs.resolve e comps := by
  unfold Fs.resolve
  rw [walk]
  cases fs.lookup d c <;> rfl

theorem Fs.resolveParent_singleton (fs : Fs) (d : ℕ) (c : Bytes) :
    fs.resolveParent d [c] = if (fs.disk d).node.isDir then some (d, c.take DIRSIZ) else none := rfl

theorem Fs.resolveParent_cons (fs : Fs) (d : ℕ) (c : Bytes) (hcomps : comps ≠ []) :
    fs.resolveParent d (c :: comps) = (fs.lookup d c).bind fun e => fs.resolveParent e comps := by
  unfold Fs.resolveParent
  rw [List.getLast?_cons_of_ne_nil hcomps, List.dropLast_cons_of_ne_nil hcomps, Fs.resolve_cons]
  cases fs.lookup d c <;> cases comps.getLast? <;> rfl

end Resolve

/-! ## Directory trees -/

/-- The inode `n` is allocated, and is not freed when a lookup drops its reference to it: it has
links, or another holds it. -/
def Fs.Lasting (f : Slot → ℕ) (fs : Fs) (n : ℕ) : Prop :=
  (fs.disk n).node ≠ .free ∧ ((fs.disk n).nlink ≠ 0 ∨ ∃ j, 0 < f j ∧ (fs.icache j).inum = n)

/-- The root and everything that an entry stands for is there. The references are counted by `f`. -/
structure Fs.Tree (f : Slot → ℕ) (fs : Fs) : Prop where
  cached : Cached f fs
  root : fs.Lasting f ROOTINO
  target : ∀ {d de}, de ∈ (fs.disk d).node.ents → de.inum ≠ 0 → fs.Lasting f de.inum

/-- The number of entries of `icache` that are not in use. -/
def unusedInodes (f : Slot → ℕ) : ℕ := (Finset.univ.filter fun j => f j = 0).card

/-- A lookup in the tree `fs0` is at the inode `ip`. The disk is as it was, and the lookup holds one
reference. -/
structure Walking (f : Slot → ℕ) (fs0 fs : Fs) (ip : Slot) : Prop where
  cached : Cached (f + Pi.single ip 1) fs
  keeps : Keeps f fs0 fs
  disk : fs.disk = fs0.disk
  alive : fs.node ip ≠ .free
  stays : (fs.dinode ip).nlink ≠ 0 ∨ 0 < f ip

/-- A lookup in `fs0` has ended, with the result `r`. -/
structure Walked (f : Slot → ℕ) (fs0 fs : Fs) (r : Option (Slot × Name)) : Prop where
  refs : Refs fs (f + heldBy r)
  keeps : Keeps f fs0 fs
  disk : fs.disk = fs0.disk

/-- The stops of a lookup that are not for want of an entry in `icache`. -/
def WrongStop (f : Slot → ℕ) (e : Stop) : Prop :=
  ¬ (e = .panic "iget: no inodes" ∧ unusedInodes f < 2)

section Iget

variable {f : Slot → ℕ} {fs0 fs fs' : Fs} {ip i : Slot} {n : ℕ}

theorem iget_eq_error {e : Stop} (h : iget fs n = .error e) :
    e = .panic "iget: no inodes" ∧ ∀ j, (fs.icache j).ref ≠ 0 := by
  unfold iget at h
  split at h
  · cases h
  · split at h
    · rename_i hnone
      refine ⟨(Except.error.inj h).symm, fun j hj => ?_⟩
      have := List.find?_eq_none.mp hnone j (List.mem_finRange j)
      simp [hj] at this
    · cases h

theorem Cached.iget_held (h : Cached f fs) {j : Slot} (hj : 0 < f j)
    (hinum : (fs.icache j).inum = n) (hget : Dockv6.iget fs n = .ok (i, fs')) : i = j := by
  have hi := (iget_spec hget).2.1
  have hkeep := (iget_refs hget h.refs).2 j hj
  refine (h.iget hget).sole (by simp) (by simp only [Pi.add_apply]; omega) ?_
  rw [hi, hkeep, hinum]

theorem unusedInodes_lt_two (ip : Slot) (h : ∀ j, (f + Pi.single ip 1 : Slot → ℕ) j ≠ 0) :
    unusedInodes f < 2 := by
  have hsub : (Finset.univ.filter fun j => f j = 0) ⊆ {ip} := fun j hj => by
    rw [Finset.mem_singleton]
    by_contra hne
    refine h j ?_
    rw [Pi.add_apply, Pi.single_eq_of_ne hne, (Finset.mem_filter.mp hj).2, Nat.add_zero]
  exact Nat.lt_succ_of_le ((Finset.card_le_card hsub).trans_eq (Finset.card_singleton ip))

/-- To get an inode that lasts. The lookup holds what `g` counts, of which `f` is held by others. -/
theorem iget_walking {g : Slot → ℕ} (hcached : Cached g fs) (hle : ∀ j, f j ≤ g j)
    (hkeeps : Keeps f fs0 fs) (hdisk : fs.disk = fs0.disk) (hlast : fs0.Lasting f n)
    (hget : iget fs n = .ok (i, fs')) :
    Cached (g + Pi.single i 1) fs' ∧ Keeps f fs0 fs' ∧ fs'.disk = fs0.disk ∧
    (fs'.icache i).inum = n ∧ fs'.node i ≠ .free ∧ ((fs'.dinode i).nlink ≠ 0 ∨ 0 < f i) := by
  obtain ⟨-, hinum, -, hdisk'⟩ := iget_spec hget
  have hd : fs'.disk = fs0.disk := hdisk'.trans hdisk
  have hnode : fs'.dinode i = fs0.disk n := by rw [Fs.dinode, hinum, hd]
  refine ⟨hcached.iget hget, hkeeps.trans ((iget_refs hget hcached.refs).2.mono hle), hd,
    hinum, ?_, ?_⟩
  · rw [Fs.node, hnode]
    exact hlast.1
  · rw [hnode]
    refine hlast.2.imp_right ?_
    rintro ⟨j, hj, hjn⟩
    have hpos : 0 < g j := hj.trans_le (hle j)
    rwa [hcached.iget_held hpos ((hkeeps j hj).trans hjn) hget]

end Iget

/-! ## The loop -/

namespace Walking

variable {f g : Slot → ℕ} {fs0 fs fs' : Fs} {ip : Slot} {n : ℕ} {name : Name}

theorem ref_pos (h : Walking f fs0 fs ip) : 1 ≤ (fs.icache ip).ref := by
  rw [h.cached.refs, Pi.add_apply, Pi.single_eq_same]
  omega

/-- The reference is dropped, and the inode is not freed. -/
theorem iput_disk (hrefs : Refs fs (g + Pi.single ip 1)) (hle : ∀ j, f j ≤ g j)
    (hstays : (fs.dinode ip).nlink ≠ 0 ∨ 0 < f ip) : (iput fs ip).disk = fs.disk := by
  have hno : ¬ ((fs.icache ip).valid ∧ (fs.dinode ip).nlink = 0 ∧ (fs.icache ip).ref = 1) := by
    rintro ⟨-, hlink, href⟩
    rw [hrefs ip, Pi.add_apply, Pi.single_eq_same] at href
    have hpos := hstays.resolve_left (absurd hlink)
    have := hle ip
    omega
  rw [iput, ifree, if_neg hno, Fs.setInode_disk]

/-- The lookup gives up. -/
theorem dropped (h : Walking f fs0 fs ip) : Walked f fs0 (iput fs ip) none where
  refs := iput_refs h.cached.refs
  keeps j hj := ((iput_spec fs ip).2.1 j).trans (h.keeps j hj)
  disk := (iput_disk h.cached.refs (fun _ => le_rfl) h.stays).trans h.disk

/-- The lookup stops at the inode. -/
theorem stopped (h : Walking f fs0 fs ip) (name : Name) : Walked f fs0 fs (some (ip, name)) :=
  ⟨h.cached.refs, h.keeps, h.disk⟩

theorem lock (h : Walking f fs0 fs ip) : ∃ fs1, ilock fs ip = .ok fs1 ∧ Walking f fs0 fs1 ip ∧
    (fs1.icache ip).inum = (fs.icache ip).inum := by
  have hex : ∃ fs1, ilock fs ip = .ok fs1 := by
    unfold ilock
    rw [if_neg (by have := h.ref_pos; omega)]
    split_ifs with hvalid hfree
    · exact ⟨_, rfl⟩
    · exact absurd hfree h.alive
    · exact ⟨_, rfl⟩
  obtain ⟨fs1, hlock⟩ := hex
  obtain ⟨hsame, -, hdisk⟩ := ilock_spec hlock
  have hd : fs1.dinode ip = fs.dinode ip := by rw [Fs.dinode, Fs.dinode, (hsame ip).2, hdisk]
  refine ⟨fs1, hlock,
    ⟨h.cached.ilock hlock, fun j hj => (hsame j).2.trans (h.keeps j hj),
    hdisk.trans h.disk, ?_, ?_⟩,
    (hsame ip).2⟩
  · rw [Fs.node, hd]
    exact h.alive
  · rw [hd]
    exact h.stays

end Walking

/-- How a round of the loop ends, at the inode `d` with the component `c`: with the inode not a
directory or without such an entry, at the inode itself, or at the inode of the entry. -/
inductive RoundEnd (f : Slot → ℕ) (fs0 : Fs) (d : ℕ) (c : Bytes) (name : Name) (stop : Bool) :
    Round → Fs → Prop
  | gaveUp {fs : Fs} (walked : Walked f fs0 fs none)
      (why : (fs0.disk d).node.isDir = false ∨ stop = false ∧ fs0.lookup d c = none) :
      RoundEnd f fs0 d c name stop (.ret none) fs
  | stopped {fs : Fs} {ip : Slot} (walking : Walking f fs0 fs ip) (last : stop = true)
      (inum : (fs.icache ip).inum = d)
      (dir : (fs0.disk d).node.isDir = true) :
        RoundEnd f fs0 d c name stop (.ret (some (ip, name))) fs
  | went {fs : Fs} {next : Slot} (walking : Walking f fs0 fs next) (more : stop = false)
      (found : fs0.lookup d c = some (fs.icache next).inum) :
        RoundEnd f fs0 d c name stop (.go next) fs

section Loop

variable {f : Slot → ℕ} {fs0 fs fs' : Fs} {ip : Slot} {n : ℕ} {c : Bytes} {name : Name}
  {par last : Bool}

theorem iunlockput_eq_ok (h : 1 ≤ (fs.icache ip).ref) : iunlockput fs ip = .ok (iput fs ip) := by
  unfold iunlockput iunlock
  rw [if_neg (by omega)]
  rfl

/-- The lookup in the directory: no entry, the next inode, or no room in `icache`. -/
theorem Walking.dirlookup (htree : fs0.Tree f) (h : Walking f fs0 fs ip)
    (hname : name.bytes = c.take DIRSIZ) (hdir : (fs.node ip).isDir = true) :
    Ensures (WrongStop f) (dirlookup fs ip name) fun x =>
      (x = (none, fs) ∧ fs0.lookup (fs.icache ip).inum c = none) ∨
      ∃ next off fs', x = (some (next, off), fs') ∧ 1 ≤ (fs'.icache next).ref ∧
      1 ≤ (fs'.icache ip).ref ∧ Walking f fs0 (iput fs' ip) next ∧
        fs0.lookup (fs.icache ip).inum c = some ((iput fs' ip).icache next).inum := by
  have hentry : ∀ m, fs.entry m name = fs0.lookup m c := fun m => by
    rw [Fs.entry_eq_lookup hname, Fs.lookup, Fs.lookup, h.disk]
  cases hlook : Dockv6.dirlookup fs ip name with
  | error e =>
    refine .throw fun hwrong => hwrong ?_
    unfold Dockv6.dirlookup at hlook
    split at hlook
    · split at hlook
      · cases hlook
      · rename_i off inum hscan
        cases hget : iget fs inum with
        | error e' =>
          rw [hget] at hlook
          cases hlook
          obtain ⟨he, hused⟩ := iget_eq_error hget
          refine ⟨he, unusedInodes_lt_two ip fun j hj => hused j ?_⟩
          rw [h.cached.refs, hj]
          rfl
        | ok x =>
          rw [hget] at hlook
          cases hlook
    · rename_i hnot
      cases hn : fs.node ip with
      | dir ents => exact absurd hn (hnot ents)
      | _ =>
        rw [hn] at hdir
        cases hdir
  | ok x =>
    refine .pure ?_
    obtain ⟨r, fs'⟩ := x
    obtain ⟨-, hcounts, hdisk, hr⟩ := dirlookup_spec hlook
    rcases r with _ | ⟨next, off⟩
    · obtain ⟨rfl, hnone⟩ := hr
      rw [hentry] at hnone
      exact .inl ⟨rfl, hnone⟩
    · obtain ⟨href, hsome⟩ := hr
      rw [hentry] at hsome
      obtain ⟨de, hde, hinum, hne⟩ := Fs.lookup_mem hsome
      have hlast : fs0.Lasting f (fs'.icache next).inum := hinum ▸ htree.target hde (hinum ▸ hne)
      have hget : iget fs (fs'.icache next).inum = .ok (next, fs') := by
        unfold Dockv6.dirlookup at hlook
        split at hlook
        · split at hlook
          · cases hlook
          · obtain ⟨⟨i, fs1⟩, hget, hret⟩ := bind_eq_ok.mp hlook
            cases hret
            rwa [(iget_spec hget).2.1]
        · cases hlook
      obtain ⟨hcached, hkeeps, hdisk', -, halive, hstays⟩ :=
        iget_walking h.cached (fun j => by simp) h.keeps h.disk hlast hget
      have hip : (fs'.icache ip).inum = (fs.icache ip).inum :=
        hcounts.inum ip (by have := h.ref_pos; omega)
      have hcached' := hcached.congr (add_right_comm f (Pi.single next 1) (Pi.single ip 1))
      have hput : (iput fs' ip).disk = fs'.disk := by
        refine Walking.iput_disk (f := f) hcached'.refs (fun j => by simp) ?_
        rw [Fs.dinode, hip, hdisk]
        exact h.stays
      refine .inr ⟨next, off, fs', rfl, href, ?_, ⟨hcached'.iput, ?_, hput.trans hdisk', ?_, ?_⟩,
        ?_⟩
      · rw [hcached'.refs, Pi.add_apply, Pi.single_eq_same]
        omega
      · exact fun j hj => ((iput_spec fs' ip).2.1 j).trans (hkeeps j hj)
      · rwa [Fs.node, Fs.dinode, (iput_spec fs' ip).2.1, hput]
      · rwa [Fs.dinode, (iput_spec fs' ip).2.1, hput]
      · rw [(iput_spec fs' ip).2.1]
        exact hsome

theorem Walking.round (htree : fs0.Tree f) (h : Walking f fs0 fs ip)
    (hname : name.bytes = c.take DIRSIZ) :
    Ensures (WrongStop f) (namexRound par last fs ip name) fun x =>
      RoundEnd f fs0 (fs.icache ip).inum c name (par && last) x.1 x.2 := by
  obtain ⟨fs1, hlock, h1, hinum⟩ := h.lock
  have hisDir : (fs0.disk (fs.icache ip).inum).node = fs1.node ip := by
    rw [Fs.node, Fs.dinode, hinum, h1.disk]
  unfold namexRound
  rw [if_neg (by have := h.ref_pos; omega)]
  refine .step hlock (.ite (fun hdir => ?_) fun hdir => .ite (fun hstop => ?_) fun hstop => ?_)
  · refine .step (iunlockput_eq_ok h1.ref_pos) (.pure (.gaveUp h1.dropped (.inl ?_)))
    simpa [hisDir] using hdir
  · have hunlock : iunlock fs1 ip = .ok fs1 := if_neg (by have := h1.ref_pos; omega)
    refine .step hunlock (.pure (.stopped h1 hstop hinum ?_))
    simpa [hisDir] using hdir
  · refine (h1.dirlookup htree hname (by simpa using hdir)).bind ?_
    rintro - (⟨rfl, hnone⟩ | ⟨next, off, fs2, rfl, href, href', hgo, hsome⟩)
    · rw [hinum] at hnone
      exact .step (iunlockput_eq_ok h1.ref_pos)
        (.pure (.gaveUp h1.dropped (.inr ⟨by simpa using hstop, hnone⟩)))
    · rw [hinum] at hsome
      dsimp only
      rw [if_neg (by omega)]
      exact .step (iunlockput_eq_ok href') (.pure (.went hgo (by simpa using hstop) hsome))

end Loop

/-- What a lookup from the inode `d` returns. -/
structure Namexed (f : Slot → ℕ) (fs0 : Fs) (par : Bool) (d : ℕ) (comps : List Bytes)
    (r : Option (Slot × Name)) (fs : Fs) : Prop extends Walked f fs0 fs r where
  found : par = false → r.map (fun x => (fs.icache x.1).inum) = fs0.resolve d comps
  parent : par = true → r.map (fun x => ((fs.icache x.1).inum, x.2.bytes)) =
    fs0.resolveParent d comps

/-- The inode at which a lookup starts is in use: the root of the container, or the current
directory. -/
structure StartHeld (f : Slot → ℕ) (fs : Fs) (ctx : PathCtx) (path : Bytes) : Prop where
  root : deref path = slash → 0 < ctx.container_id → ∃ r, ctx.root = some r ∧ 0 < f r ∧
    fs.node r ≠ .free
  cwd : deref path ≠ slash → 0 < f ctx.cwd ∧ fs.node ctx.cwd ≠ .free

section Namex

variable {f : Slot → ℕ} {fs0 fs : Fs} {ip : Slot} {n d : ℕ} {c : Bytes} {comps : List Bytes}
  {path : Bytes}
  {name : Name} {par stop : Bool} {out : Round} {r : Option (Slot × Name)}

theorem Walking.namexEnd (h : Walking f fs0 fs ip) (name : Name) :
    Namexed f fs0 par (fs.icache ip).inum [] (namexEnd par fs ip name).1
    (namexEnd par fs ip name).2 := by
  unfold Dockv6.namexEnd
  split_ifs with hpar
  · exact ⟨h.dropped, fun hfalse => absurd hpar (by rw [hfalse]; nofun), fun _ => rfl⟩
  · exact ⟨h.stopped name, fun _ => rfl, fun htrue => absurd htrue hpar⟩

theorem RoundEnd.ret (h : RoundEnd f fs0 d c name stop (.ret r) fs)
    (hname : name.bytes = c.take DIRSIZ)
    (hstop : stop = true ↔ par = true ∧ comps = []) : Namexed f fs0 par d (c :: comps) r fs := by
  cases h with
  | gaveUp walked why =>
    have hnone : fs0.lookup d c = none :=
      why.elim (fun hdir => Fs.lookup_of_not_isDir hdir c) fun hmore => hmore.2
    refine ⟨walked, fun _ => ?_, fun hpar => ?_⟩
    · rw [Fs.resolve_cons, hnone]
      rfl
    · by_cases hcomps : comps = []
      · obtain hdir | ⟨hfalse, -⟩ := why
        · rw [hcomps, Fs.resolveParent_singleton, hdir]
          rfl
        · exact absurd (hstop.mpr ⟨hpar, hcomps⟩) (by rw [hfalse]; nofun)
      · rw [Fs.resolveParent_cons fs0 d c hcomps, hnone]
        rfl
  | stopped walking last inum dir =>
    obtain ⟨hpar, hcomps⟩ := hstop.mp last
    refine ⟨walking.stopped name, fun hfalse => absurd hpar (by rw [hfalse]; nofun), fun _ => ?_⟩
    rw [hcomps, Fs.resolveParent_singleton, dir, ← inum, ← hname]
    rfl

/-- The loop goes on from the entry of the first component. -/
theorem Namexed.cons (hfound : fs0.lookup d c = some n) (hmore : ¬ (par = true ∧ comps = []))
    (h : Namexed f fs0 par n comps r fs) : Namexed f fs0 par d (c :: comps) r fs := by
  refine ⟨h.toWalked, fun hpar => ?_, fun hpar => ?_⟩
  · rw [h.found hpar, Fs.resolve_cons, hfound]
    rfl
  · rw [h.parent hpar, Fs.resolveParent_cons fs0 d c fun hnil => hmore ⟨hpar, hnil⟩, hfound]
    rfl

theorem Walking.namexLoop (htree : fs0.Tree f) (h : Walking f fs0 fs ip) (hn : path.length ≤ n) :
    Ensures (WrongStop f) (namexLoop par n fs ip path name) fun x =>
      Namexed f fs0 par (fs.icache ip).inum (components path) x.1 x.2 := by
  induction n generalizing fs ip path name with
  | zero =>
    obtain rfl : path = [] := List.length_eq_zero_iff.mp (by omega)
    exact .pure (h.namexEnd name)
  | succ n ih =>
    rw [Dockv6.namexLoop]
    cases hskip : skipelem path with
    | none =>
      rw [components_of_skipelem_eq_none hskip]
      exact .pure (h.namexEnd name)
    | some x =>
      obtain ⟨rest, name'⟩ := x
      obtain ⟨c, hcomps, hname⟩ := components_of_skipelem hskip
      have hlen := length_skipelem hskip
      have hlast : (par && deref rest == 0) = true ↔ par = true ∧ components rest = [] := by
        rw [Bool.and_eq_true, beq_iff_eq, components_rest hskip]
      rw [hcomps]
      refine (h.round htree hname).bind ?_
      rintro ⟨out, fs1⟩ hround
      cases out with
      | ret r => exact .pure (hround.ret hname hlast)
      | go next =>
        cases hround with
        | went walking more found =>
          refine (ih walking (by omega)).imp fun x hx => hx.cons found fun hstop => ?_
          rw [hlast.mpr hstop] at more
          cases more

/-- The inode at which a lookup starts. -/
theorem startInode_walking {ctx : PathCtx} (htree : fs0.Tree f)
    (hheld : StartHeld f fs0 ctx (containerPath ctx path)) :
    Ensures (WrongStop f) (startInode ctx fs0 (containerPath ctx path)) fun x =>
      Walking f fs0 x.2 x.1 ∧ (x.2.icache x.1).inum = startInum ctx fs0 path := by
  have hdup : ∀ {j : Slot}, 0 < f j ∧ fs0.node j ≠ .free → Walking f fs0 (idup fs0 j) j ∧
      ((idup fs0 j).icache j).inum = (fs0.icache j).inum := fun {j} ⟨hj, halive⟩ => by
    obtain ⟨-, hinum, hdisk⟩ := idup_spec fs0 j
    refine ⟨⟨htree.cached.idup hj, fun j _ => hinum j, hdisk, ?_, .inr hj⟩, hinum _⟩
    rwa [Fs.node, Fs.dinode, hinum, hdisk]
  unfold startInode startInum
  refine .ite (fun hslash => ?_) fun hslash => ?_
  · rw [if_pos hslash]
    refine .ite (fun hid => ?_) fun hid => ?_
    · obtain ⟨r, hr, hf⟩ := hheld.root hslash hid
      rw [if_pos hid, hr]
      exact .pure (hdup hf)
    · rw [if_neg hid]
      cases hget : iget fs0 ROOTINO with
      | error e =>
        obtain ⟨he, hused⟩ := iget_eq_error hget
        refine .throw fun hwrong => hwrong ⟨he, unusedInodes_lt_two ctx.cwd fun j hj => hused j ?_⟩
        rw [htree.cached.refs, (Nat.add_eq_zero_iff.mp hj).1]
        rfl
      | ok x =>
        obtain ⟨i, fs1⟩ := x
        obtain ⟨hcached, hkeeps, hdisk, hinum, hlive, hstays⟩ :=
          iget_walking htree.cached (fun _ => le_rfl) (fun _ _ => rfl) rfl htree.root hget
        exact .pure ⟨⟨hcached, hkeeps, hdisk, hlive, hstays⟩, hinum⟩
  · rw [if_neg hslash]
    exact .pure (hdup (hheld.cwd hslash))

theorem namex_namexed {ctx : PathCtx} (path : Bytes) (par : Bool) (htree : fs0.Tree f)
    (hheld : StartHeld f fs0 ctx (containerPath ctx path)) :
    Ensures (WrongStop f) (namex ctx fs0 path par) fun x =>
      Namexed f fs0 par (startInum ctx fs0 path) (components (containerPath ctx path)) x.1 x.2 := by
  refine (startInode_walking htree hheld).bind ?_
  rintro ⟨ip, fs1⟩ ⟨hwalking, hstart⟩
  rw [← hstart]
  exact hwalking.namexLoop htree le_rfl

end Namex

/-- **Path resolution.** Outside a container `namex` returns the inode that the components lead to,
or the directory before the last component together with that component, and adds one reference, to
the inode it returns. It may stop for want of an entry in `icache`, but not if two of them are
unused. -/
theorem namex_resolves {ctx : PathCtx} {f : Slot → ℕ} {fs : Fs} (hctx : ctx.container_id = 0)
    (htree : fs.Tree f) (hcwd : 0 < f ctx.cwd) (halive : fs.node ctx.cwd ≠ .free) (path : Bytes)
    (par : Bool) :
    (∃ r fs', namex ctx fs path par = .ok (r, fs') ∧
      Namexed f fs par (pathStart fs ctx.cwd path) (components path) r fs') ∨
    (namex ctx fs path par = .error (.panic "iget: no inodes") ∧ unusedInodes f < 2) := by
  have hpath : containerPath ctx path = path := if_neg fun h => by omega
  have hnamex : Ensures (WrongStop f) (namex ctx fs path par) fun x =>
      Namexed f fs par (pathStart fs ctx.cwd path) (components path) x.1 x.2 := by
    have hheld : StartHeld f fs ctx (containerPath ctx path) :=
      ⟨fun _ hid => by omega, fun _ => ⟨hcwd, halive⟩⟩
    have hall := namex_namexed path par htree hheld
    have hstart : startInum ctx fs path = pathStart fs ctx.cwd path := by
      rw [startInum, pathStart, hpath, if_neg (show ¬ 0 < ctx.container_id by omega)]
    rwa [hpath, hstart] at hall
  cases hrun : namex ctx fs path par with
  | error e =>
    obtain ⟨rfl, hfew⟩ := not_not.mp (hnamex.stop hrun)
    exact .inr ⟨rfl, hfew⟩
  | ok x => exact .inl ⟨x.1, x.2, rfl, hnamex.value hrun⟩

/-- A disk whose root directory has one file, `a`, with the root in use as a current directory. -/
def Fs.oneFile : Fs :=
  { ninodes := 3
    disk := fun n =>
      if n = 1 then { node := .dir [⟨1, [46]⟩, ⟨1, [46, 46]⟩, ⟨2, [97]⟩], nlink := 1 }
      else if n = 2 then { node := .file [], nlink := 1 }
      else { node := .free, nlink := 0 }
    icache := fun j =>
      if j = 0 then { inum := 1, ref := 1, valid := true }
        else { inum := 0, ref := 0, valid := false } }

theorem cached_single {fs : Fs} {i : Slot}
    (hi : fs.icache i = { inum := 1, ref := 1, valid := true })
    (hother : ∀ j, j ≠ i → fs.icache j = { inum := 0, ref := 0, valid := false })
    (halive : fs.node i ≠ .free) : Cached (Pi.single i 1) fs := by
  have hheld : ∀ {j : Slot}, 0 < (Pi.single i 1 : Slot → ℕ) j → j = i := fun {j} hj => by
    by_contra hne
    rw [Pi.single_eq_of_ne hne] at hj
    exact absurd hj (lt_irrefl 0)
  refine ⟨fun j => ?_, fun hj hk _ => (hheld hj).trans (hheld hk).symm, fun {j} hj _ => ?_⟩
  · by_cases hj : j = i
    · rw [hj, hi, Pi.single_eq_same]
      rfl
    · rw [hother j hj, Pi.single_eq_of_ne hj]
      rfl
  · rwa [hheld hj]

theorem oneFile_tree : Fs.oneFile.Tree (Pi.single 0 1) where
  cached := cached_single rfl (fun j hj => if_neg hj) (by decide)
  root := ⟨by decide, .inl (by decide)⟩
  target {d de} hde _ := by
    have hone : de.inum = 1 ∨ de.inum = 2 := by
      unfold Fs.oneFile at hde
      dsimp only at hde
      split_ifs at hde
      · simp only [Node.ents, List.mem_cons, List.not_mem_nil, or_false] at hde
        obtain rfl | rfl | rfl := hde <;> simp
      · cases hde
      · cases hde
    obtain h | h := hone <;> rw [h] <;> exact ⟨by decide, .inl (by decide)⟩

/-- The path `//a/` leads to the file. -/
theorem namex_resolves_oneFile :
    ∃ r fs', namex ⟨0, none, 0⟩ .oneFile [47, 47, 97, 47] false = .ok (r, fs') ∧
      Namexed (Pi.single 0 1) .oneFile false ROOTINO [[97]] r fs' ∧
      Fs.oneFile.resolve ROOTINO [[97]] = some 2 := by
  have hroom : ¬ unusedInodes (Pi.single 0 1) < 2 := by decide
  obtain ⟨r, fs', hrun, hr⟩ | ⟨-, hfew⟩ :=
    namex_resolves (show (⟨0, none, 0⟩ : PathCtx).container_id = 0 from rfl)
    oneFile_tree (by decide) (by decide) [47, 47, 97, 47] false
  · exact ⟨r, fs', hrun, hr, by decide⟩
  · exact absurd hfew hroom

end Dockv6
