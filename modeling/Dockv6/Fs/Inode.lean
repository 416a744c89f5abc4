import Dockv6.Kernel.CString
import Dockv6.Kernel.Param
import Dockv6.Kernel.Stop

/-!
# Inodes

The inode layer of `fs.c` as path lookup uses it: the inodes on the disk with what they hold, and
the table `icache` with its reference counts. There is one device. `iupdate` follows every change of
an inode at once, so an inode in memory, once read, is the one on the disk. The calls run one after
another, so the sleep locks are left out.
-/

namespace Dockv6

/-- `struct dirent`. An entry with inode number `0` is empty. -/
structure Dirent where
  inum : ℕ
  name : Bytes
  deriving DecidableEq

/-- The types of `stat.h`. -/
inductive IType
  | T_DIR
  | T_FILE
  | T_DEV
  deriving DecidableEq

/-- An inode's type and what it holds. Type `0` is a free inode. -/
inductive Node
  | free
  | dir (ents : List Dirent)
  | file (data : Bytes)
  | dev (major minor : ℕ)
  deriving DecidableEq

namespace Node

/-- Is it a directory? -/
def isDir : Node → Bool
  | .dir _ => true
  | _ => false

/-- Is it a file? -/
def isFile : Node → Bool
  | .file _ => true
  | _ => false

/-- The entries of a directory. -/
def ents : Node → List Dirent
  | .dir es => es
  | _ => []

/-- An inode whose bytes have been cleared and whose type has been set. -/
def blank : IType → Node
  | .T_DIR => .dir []
  | .T_FILE => .file []
  | .T_DEV => .dev 0 0

/-- `ip->major = major; ip->minor = minor`, which only a device's inode is ever asked for. -/
def setDev (major minor : ℕ) : Node → Node
  | .dev _ _ => .dev major minor
  | n => n

@[simp] theorem ents_setDev (major minor : ℕ) (n : Node) :
    (n.setDev major minor).ents = n.ents := by
  cases n <;> rfl

@[simp] theorem ents_blank (t : IType) : (blank t).ents = [] := by
  cases t <;> rfl

theorem free_of_setDev {major minor : ℕ} {n : Node} (h : n.setDev major minor = .free) :
    n = .free := by
  cases n with
  | dev a b => cases h
  | _ => exact h

end Node

/-- `struct dinode`. -/
structure Dinode where
  node : Node
  nlink : Int
  deriving DecidableEq

/-- `struct inode`: an entry of `icache`. -/
structure Inode where
  inum : ℕ
  ref : Int
  valid : Bool
  deriving DecidableEq

/-- The index of an entry of `icache`, for a pointer to it. -/
abbrev Slot := Fin NINODE

/-- The file system: `sb.ninodes`, the inodes of the disk, and `icache`. -/
structure Fs where
  ninodes : ℕ
  disk : ℕ → Dinode
  icache : Slot → Inode

namespace Fs

/-- The inode on the disk that the entry `i` stands for. -/
def dinode (fs : Fs) (i : Slot) : Dinode := fs.disk (fs.icache i).inum

/-- The contents of the inode `i`. -/
def node (fs : Fs) (i : Slot) : Node := (fs.dinode i).node

/-- Change an entry of `icache`. -/
def setInode (fs : Fs) (i : Slot) (e : Inode) : Fs :=
  { fs with icache := Function.update fs.icache i e }

/-- Change an inode on the disk. -/
def setDinode (fs : Fs) (n : ℕ) (d : Dinode) : Fs :=
  { fs with disk := Function.update fs.disk n d }

@[simp] theorem setInode_disk (fs : Fs) (i : Slot) (e : Inode) : (fs.setInode i e).disk = fs.disk :=
  rfl

@[simp] theorem setDinode_icache (fs : Fs) (n : ℕ) (d : Dinode) :
    (fs.setDinode n d).icache = fs.icache := rfl

theorem setInode_icache (fs : Fs) (i j : Slot) (e : Inode) :
    (fs.setInode i e).icache j = if j = i then e else fs.icache j := by
  by_cases h : j = i
  · subst h
    simp [setInode]
  · simp [setInode, h]

theorem setDinode_disk (fs : Fs) (n m : ℕ) (d : Dinode) :
    (fs.setDinode n d).disk m = if m = n then d else fs.disk m := by
  by_cases h : m = n
  · subst h
    simp [setDinode]
  · simp [setDinode, h]

end Fs

/-! ## The functions of the inode layer -/

/-- Find the inode with number `inum` in `icache`, or recycle the first unused entry for it. -/
def iget (fs : Fs) (inum : ℕ) : Res (Slot × Fs) :=
  match (List.finRange NINODE).find?
      (fun i => 0 < (fs.icache i).ref && (fs.icache i).inum == inum) with
  | some i => .ok (i, fs.setInode i { fs.icache i with ref := (fs.icache i).ref + 1 })
  | none =>
    match (List.finRange NINODE).find? (fun i => (fs.icache i).ref == 0) with
    | none => .error (.panic "iget: no inodes")
    | some i => .ok (i, fs.setInode i { inum := inum, ref := 1, valid := false })

/-- Increment the reference count of `ip`. -/
def idup (fs : Fs) (ip : Slot) : Fs :=
  fs.setInode ip { fs.icache ip with ref := (fs.icache ip).ref + 1 }

/-- Lock the inode, reading it from the disk if necessary. -/
def ilock (fs : Fs) (ip : Slot) : Res Fs :=
  if (fs.icache ip).ref < 1 then .error (.panic "ilock")
  else if (fs.icache ip).valid then .ok fs
  else if fs.node ip = .free then .error (.panic "ilock: no type")
  else .ok (fs.setInode ip { fs.icache ip with valid := true })

/-- Unlock the inode. -/
def iunlock (fs : Fs) (ip : Slot) : Res Fs :=
  if (fs.icache ip).ref < 1 then .error (.panic "iunlock") else .ok fs

/-- The first half of `iput`: an inode with no links and no other references is freed. -/
def ifree (fs : Fs) (ip : Slot) : Fs :=
  if (fs.icache ip).valid ∧ (fs.dinode ip).nlink = 0 ∧ (fs.icache ip).ref = 1 then
    (fs.setDinode (fs.icache ip).inum { fs.dinode ip with node := .free }).setInode ip
      { fs.icache ip with valid := false }
  else fs

/-- Drop a reference to an in-memory inode. -/
def iput (fs : Fs) (ip : Slot) : Fs :=
  (ifree fs ip).setInode ip
    { (ifree fs ip).icache ip with ref := ((ifree fs ip).icache ip).ref - 1 }

/-- Unlock, then put. -/
def iunlockput (fs : Fs) (ip : Slot) : Res Fs := do
  let fs ← iunlock fs ip
  return iput fs ip

/-- Allocate an inode and give it the type `type`. -/
def ialloc (fs : Fs) (type : IType) : Res (Slot × Fs) :=
  match (List.range' 1 (fs.ninodes - 1)).find? (fun n => decide ((fs.disk n).node = .free)) with
  | none => .error (.panic "ialloc: no inodes")
  | some n => iget (fs.setDinode n { node := .blank type, nlink := 0 }) n

/-! ## What they do

`Counts fs fs' d`: the reference counts have changed by `d`, and an entry that was referenced still
stands for the same inode. `Frees fs fs'`: the inodes of the disk are as they were, but for some
without links that have been freed. `Shrinks fs fs'` is what is left of this when the link counts do
not matter: the inodes are as they were, or free. -/

/-- The reference counts change by `d`; an entry in use keeps its inode number. -/
structure Counts (fs fs' : Fs) (d : Slot → Int) : Prop where
  ref : ∀ j, (fs'.icache j).ref = (fs.icache j).ref + d j
  inum : ∀ j, (fs.icache j).ref ≠ 0 → (fs'.icache j).inum = (fs.icache j).inum

/-- The inodes of the disk are unchanged or freed. -/
def Shrinks (fs fs' : Fs) : Prop :=
  ∀ n, (fs'.disk n).node = (fs.disk n).node ∨ (fs'.disk n).node = .free

/-- Some inodes without links have been freed. -/
structure Frees (fs fs' : Fs) : Prop where
  ninodes : fs'.ninodes = fs.ninodes
  disk : ∀ n, fs'.disk n = fs.disk n ∨
    (fs.disk n).nlink = 0 ∧ fs'.disk n = { fs.disk n with node := .free }

/-- The reference counts, where none is negative. -/
def Refs (fs : Fs) (f : Slot → ℕ) : Prop := ∀ j, (fs.icache j).ref = f j

/-- The entries that `f` counts a reference to stand for the same inodes. -/
def Keeps (f : Slot → ℕ) (fs fs' : Fs) : Prop :=
  ∀ j, 0 < f j → (fs'.icache j).inum = (fs.icache j).inum

/-- The counts after a change. -/
theorem Counts.refs {fs fs' : Fs} {d : Slot → Int} {f g : Slot → ℕ} (h : Counts fs fs' d)
    (hf : Refs fs f) (hg : ∀ j, (g j : Int) = f j + d j) : Refs fs' g := by
  intro j
  rw [h.ref, hf, hg]

/-- What was referenced keeps its inode. -/
theorem Counts.keeps {fs fs' : Fs} {d : Slot → Int} {f g : Slot → ℕ} (h : Counts fs fs' d)
    (hf : Refs fs f) (hg : ∀ j, 0 < g j → 0 < f j) : Keeps g fs fs' := by
  intro j hj
  refine h.inum j ?_
  rw [hf]
  have := hg j hj
  omega

theorem Keeps.trans {f : Slot → ℕ} {fs1 fs2 fs3 : Fs} (h : Keeps f fs1 fs2)
    (h' : Keeps f fs2 fs3) : Keeps f fs1 fs3 :=
  fun j hj => (h' j hj).trans (h j hj)

theorem Keeps.mono {f g : Slot → ℕ} {fs fs' : Fs} (h : Keeps f fs fs') (hle : ∀ j, g j ≤ f j) :
    Keeps g fs fs' :=
  fun j hj => h j (lt_of_lt_of_le hj (hle j))

theorem Shrinks.of_disk_eq {fs fs' : Fs} (h : fs'.disk = fs.disk) : Shrinks fs fs' := by
  intro n
  rw [h]
  exact .inl rfl

theorem Shrinks.trans {fs1 fs2 fs3 : Fs} (h : Shrinks fs1 fs2) (h' : Shrinks fs2 fs3) :
    Shrinks fs1 fs3 := by
  intro n
  rcases h' n with hn | hn
  · rw [hn]
    exact h n
  · exact .inr hn

/-- An entry of a directory was there before. -/
theorem Shrinks.ents {fs fs' : Fs} (h : Shrinks fs fs') {n : ℕ} {de : Dirent}
    (hde : de ∈ (fs'.disk n).node.ents) : de ∈ (fs.disk n).node.ents := by
  rcases h n with hn | hn
  · rwa [hn] at hde
  · rw [hn] at hde
    cases hde

theorem Shrinks.isFile {fs fs' : Fs} (h : Shrinks fs fs') {n : ℕ}
    (hn : (fs'.disk n).node.isFile = true) : (fs.disk n).node.isFile = true := by
  rcases h n with he | he
  · rwa [he] at hn
  · rw [he] at hn
    cases hn

namespace Frees

variable {fs fs' : Fs}

theorem of_disk_eq (hn : fs'.ninodes = fs.ninodes) (hdisk : fs'.disk = fs.disk) : Frees fs fs' :=
  ⟨hn, fun n => .inl (by rw [hdisk])⟩

theorem refl (fs : Fs) : Frees fs fs := .of_disk_eq rfl rfl

theorem trans {fs1 fs2 fs3 : Fs} (h : Frees fs1 fs2) (h' : Frees fs2 fs3) : Frees fs1 fs3 := by
  refine ⟨h'.ninodes.trans h.ninodes, fun n => ?_⟩
  rcases h.disk n with hn | ⟨hzero, hn⟩
  · rw [← hn]
    exact h'.disk n
  · refine .inr ⟨hzero, ?_⟩
    rcases h'.disk n with hn' | ⟨-, hn'⟩ <;> rw [hn', hn]

/-- Inodes that are freed have no entries left. -/
theorem shrinks (h : Frees fs fs') : Shrinks fs fs' := by
  intro n
  rcases h.disk n with hn | ⟨-, hn⟩
  · exact .inl (by rw [hn])
  · exact .inr (by rw [hn])

end Frees

section Spec

variable {fs fs' : Fs} {i : Slot} {n : ℕ}

/-- `iget` takes one reference, to an entry that stands for the inode `n`. -/
theorem iget_spec (h : iget fs n = .ok (i, fs')) :
    Counts fs fs' (fun j => if j = i then 1 else 0) ∧ (fs'.icache i).inum = n ∧
      1 ≤ (fs'.icache i).ref ∧ fs'.disk = fs.disk := by
  unfold iget at h
  split at h
  · rename_i k hk
    obtain ⟨rfl, rfl⟩ := Prod.mk.inj (Except.ok.inj h)
    have hfound := List.find?_some hk
    simp only [Bool.and_eq_true, decide_eq_true_eq, beq_iff_eq] at hfound
    refine ⟨⟨fun j => ?_, fun j _ => ?_⟩, ?_, ?_, rfl⟩
    · rw [Fs.setInode_icache]
      split_ifs with hj <;> simp [hj]
    · rw [Fs.setInode_icache]
      split_ifs with hj <;> simp [hj]
    · simpa [Fs.setInode_icache] using hfound.2
    · rw [Fs.setInode_icache, if_pos rfl]
      have := hfound.1
      simp only
      omega
  · split at h
    · cases h
    · rename_i k hk
      obtain ⟨rfl, rfl⟩ := Prod.mk.inj (Except.ok.inj h)
      have hzero : (fs.icache k).ref = 0 := by simpa using List.find?_some hk
      refine ⟨⟨fun j => ?_, fun j hj => ?_⟩, ?_, ?_, rfl⟩
      · rw [Fs.setInode_icache]
        split_ifs with hj
        · subst hj
          rw [hzero]
          rfl
        · simp
      · rw [Fs.setInode_icache, if_neg]
        rintro rfl
        exact hj hzero
      · simp [Fs.setInode_icache]
      · simp [Fs.setInode_icache]

theorem iget_frees (h : iget fs n = .ok (i, fs')) : Frees fs fs' := by
  refine .of_disk_eq ?_ (iget_spec h).2.2.2
  unfold iget at h
  split at h
  · cases h
    rfl
  · split at h
    · cases h
    · cases h
      rfl

/-- `idup` takes one more reference. -/
theorem idup_spec (fs : Fs) (i : Slot) :
    Counts fs (idup fs i) (fun j => if j = i then 1 else 0) ∧
      (∀ j, ((idup fs i).icache j).inum = (fs.icache j).inum) ∧ (idup fs i).disk = fs.disk := by
  refine ⟨⟨fun j => ?_, fun j _ => ?_⟩, fun j => ?_, rfl⟩ <;>
    · rw [idup, Fs.setInode_icache]
      split_ifs with hj <;> simp [hj]

/-- `ilock` needs a reference, and changes no count. -/
theorem ilock_spec (h : ilock fs i = .ok fs') :
    (∀ j, (fs'.icache j).ref = (fs.icache j).ref ∧ (fs'.icache j).inum = (fs.icache j).inum) ∧
      1 ≤ (fs.icache i).ref ∧ fs'.disk = fs.disk := by
  unfold ilock at h
  split_ifs at h with href hvalid hfree
  · obtain rfl := Except.ok.inj h
    exact ⟨fun j => ⟨rfl, rfl⟩, by omega, rfl⟩
  · obtain rfl := Except.ok.inj h
    refine ⟨fun j => ?_, by omega, rfl⟩
    rw [Fs.setInode_icache]
    split_ifs with hj <;> simp [hj]

theorem ilock_frees (h : ilock fs i = .ok fs') : Frees fs fs' := by
  refine .of_disk_eq ?_ (ilock_spec h).2.2
  unfold ilock at h
  split_ifs at h <;> cases h <;> rfl

theorem iunlock_spec (h : iunlock fs i = .ok fs') : fs' = fs ∧ 1 ≤ (fs.icache i).ref := by
  unfold iunlock at h
  split_ifs at h with href
  exact ⟨(Except.ok.inj h).symm, by omega⟩

/-- `iput` frees an inode without links, and changes no count for it. -/
theorem ifree_spec (fs : Fs) (i : Slot) :
    (∀ j, ((ifree fs i).icache j).ref = (fs.icache j).ref ∧
      ((ifree fs i).icache j).inum = (fs.icache j).inum) ∧ Frees fs (ifree fs i) := by
  unfold ifree
  split_ifs with hfree
  · refine ⟨fun j => ?_, rfl, fun n => ?_⟩
    · rw [Fs.setInode_icache]
      split_ifs with hj <;> simp [hj]
    · rw [Fs.setInode_disk, Fs.setDinode_disk]
      split_ifs with hn
      · rw [hn]
        exact .inr ⟨hfree.2.1, rfl⟩
      · exact .inl rfl
  · exact ⟨fun j => ⟨rfl, rfl⟩, .refl fs⟩

/-- `iput` drops one reference. -/
theorem iput_spec (fs : Fs) (i : Slot) :
    Counts fs (iput fs i) (fun j => if j = i then -1 else 0) ∧
      (∀ j, ((iput fs i).icache j).inum = (fs.icache j).inum) ∧ Frees fs (iput fs i) := by
  obtain ⟨hkeep, hfrees⟩ := ifree_spec fs i
  refine ⟨⟨fun j => ?_, fun j _ => ?_⟩, fun j => ?_, ?_⟩
  · rw [iput, Fs.setInode_icache]
    split_ifs with hj
    · subst hj
      simp only [(hkeep j).1]
      omega
    · rw [(hkeep j).1, Int.add_zero]
  · rw [iput, Fs.setInode_icache]
    split_ifs with hj <;> simp [hj, hkeep]
  · rw [iput, Fs.setInode_icache]
    split_ifs with hj <;> simp [hj, hkeep]
  · exact ⟨hfrees.ninodes, hfrees.disk⟩

section Refs

variable {f : Slot → ℕ}

theorem iget_refs (h : iget fs n = .ok (i, fs')) (hf : Refs fs f) :
    Refs fs' (f + Pi.single i 1) ∧ Keeps f fs fs' := by
  have hc := (iget_spec h).1
  refine ⟨hc.refs hf fun j => ?_, hc.keeps hf fun _ => id⟩
  by_cases hj : j = i <;> simp [hj]

theorem idup_refs (i : Slot) (hf : Refs fs f) : Refs (idup fs i) (f + Pi.single i 1) := by
  refine (idup_spec fs i).1.refs hf fun j => ?_
  by_cases hj : j = i <;> simp [hj]

theorem ilock_refs (h : ilock fs i = .ok fs') (hf : Refs fs f) : Refs fs' f :=
  fun j => ((ilock_spec h).1 j).1.trans (hf j)

theorem iput_refs (hf : Refs fs (f + Pi.single i 1)) : Refs (iput fs i) f := by
  refine (iput_spec fs i).1.refs hf fun j => ?_
  by_cases hj : j = i
  · simp only [hj, Pi.add_apply, Pi.single_eq_same, if_true]
    omega
  · simp [hj]

end Refs

/-- Unlocking changes nothing. -/
theorem iunlockput_spec (h : iunlockput fs i = .ok fs') : fs' = iput fs i := by
  obtain ⟨fs1, h1, h2⟩ := bind_eq_ok.mp h
  obtain ⟨rfl, -⟩ := iunlock_spec h1
  exact (Except.ok.inj h2).symm

end Spec

end Dockv6
